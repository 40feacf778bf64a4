import AgentGraph.Proofs.Record.Keys
import AgentGraph.Proofs.RoundTrip
/-!
# User data is inert

A graph that can be read back is saved unless it is too deep, and loaded again unless the load stops at
a limit. What is loaded has all data that the policy lets through as it was, whatever its keys mean
elsewhere: metadata, the data of builtin kinds, and the data in declared fields of extensions. Besides
the reserved keys, which are dropped, only the keys that make a mapping a reference or give it entries
for others are recognised anywhere, and in fields of extensions the discriminator.
-/
namespace AgentGraph

/-- A failure for the limit of depth. -/
def SaveError.IsTooDeep (e : SaveError) : Prop := ∃ limit, e = .depthExceeded limit

namespace Writer

/-- Components that are written in full, with equal components under equal ids, fail to be saved only
at the limit of depth. -/
theorem FullGraph.save_ends {registry : Registry} {policy : Policy} {options : SaveOptions}
    {root : Component} (G : (options.writer registry policy).FullGraph root)
    (hwhole : options.disaggregated = []) :
    Gives SaveError.IsTooDeep (save registry policy options root) fun _ => True := by
  have hwritten : ∀ c, Component.Reaches Component.children root c →
      (options.writer registry policy).writtenChildren c = c.children := by
    intro c hc
    rw [writtenChildren, writtenFields_ok (G.component c hc).visibleFields_eq]
    exact G.children_eq hc
  have hclosed : (options.writer registry policy).Closed
      (Component.Reaches Component.children root) :=
    fun c hc d hd => hc.kid (hwritten c hc ▸ hd)
  have hkeyed : (options.writer registry policy).Keyed
      (Component.Reaches Component.children root) fun _ => True :=
    ⟨fun _ _ => trivial, fun _ _ => trivial, fun _ _ _ _ => trivial,
      fun _ _ _ _ _ _ => Tree.keysAll_of_each fun _ _ => trivial⟩
  have hfail : (options.writer registry policy).MayFail
      (Component.Reaches Component.children root) SaveError.IsTooDeep := by
    refine ⟨fun limit => ⟨limit, rfl⟩, fun c e hc herror => ?_, fun c d hc hd hid _ hdiffer => ?_⟩
    · rw [(G.component c hc).visibleFields_eq] at herror
      cases herror
    · rw [G.coherent d c hd hc hid] at hdiffer
      cases hdiffer
  have hgives := save_gives hclosed hkeyed hfail (fun _ _ _ => trivial) (fun s e herror => by
    rw [hwhole] at herror
    cases herror) (.refl root)
  exact hgives.mono fun _ _ => trivial

variable {w : Writer} {root L M c d : Component} {l : Layout} {t : LoadState}
  {G : w.FullGraph root} {Local : String → Prop}

/-- What a component holds is held, by its id, by every component that stands for it. -/
theorem Sound.exists_held (hresolved : Resolved G l (fun _ => none) Local t)
    (h : w.Sound root (fun _ => none) t c.id M)
    (hc : Component.Reaches Component.children root c) (hd : d ∈ c.children) :
    ∃ d' ∈ M.children, w.Sound root (fun _ => none) t d.id d' := by
  obtain ⟨-, k, -, hk, -, hid, -, -, -, hkind⟩ := h.restores.origin
  -- the kind that was read is that of an equal component, which holds the same ids
  have hkid : d.id ∈ w.kidsOf root c.id :=
    (G.regular.mem_kidsOf (G.reaches_iff.mpr hc)).mpr ⟨d, (G.children_eq hc).symm ▸ hd, rfl⟩
  rw [← hid, G.regular.mem_kidsOf (G.reaches_iff.mpr hk), G.children_eq hk] at hkid
  obtain ⟨e, he, hed⟩ := hkid
  obtain ⟨d', hd', hide⟩ := exists_left hkind.held.flip he
  refine ⟨d', hd', ?_⟩
  have hmeaning : t.resolved? d'.id = some d' := h.closed d' (.kid (.refl M) hd')
  obtain ⟨x, -, -, -, hsound⟩ := hresolved _ _ (LoadState.resolved?_eq_some.mp hmeaning)
  rwa [← hsound.restores.id, hide, hed] at hsound

/-- What lies below a component stands, by its id, below every component that stands for it. -/
theorem Sound.exists_below (hresolved : Resolved G l (fun _ => none) Local t) {i : List String}
    (h : w.Sound root (fun _ => none) t c.id M)
    (hc : Component.Reaches Component.children root c)
    (p : Component.Route Component.children c i d) :
    ∃ d', Component.Reaches Component.children M d' ∧
      w.Sound root (fun _ => none) t d.id d' := by
  induction p generalizing M with
  | here => exact ⟨M, .refl M, h⟩
  | step hd _ ih =>
    obtain ⟨e, he, hsound⟩ := h.exists_held hresolved hc hd
    obtain ⟨d', hd', hrestored⟩ := ih hsound (hc.kid hd)
    exact ⟨d', .step he hd', hrestored⟩

end Writer

/-- A field of a type comes back under its own name: it is one of a builtin type and no secret, or it is
declared to a plugin that keeps the type as bags, with no other declared name spelled like it. -/
inductive Registry.Recalls (r : Registry) (naming : NamingMode) (type field : String) : Prop
  | builtin : type ∈ Builtin.types → Policy.builtin.isSensitive type field = false →
      Recalls r naming type field
  | declared {declared : List String} : r.KeepsBags type declared → field ∈ declared →
      (∀ other ∈ declared, naming.toDocument other = naming.toDocument field → other = field) →
      Recalls r naming type field

/-- A component that was loaded has the data of one that was saved: its metadata, and all data in fields
that come back under their names. Of equal components that were saved at several places it has the data
of one. -/
structure GivesDataBack (r : Registry) (naming : NamingMode) (root c c' : Component) : Prop where
  id : c'.id = c.id
  metadata : ∃ d, Component.Reaches Component.children root d ∧ c.same d = true ∧
    c'.metadata = d.metadata
  data : ∃ d, Component.Reaches Component.children root d ∧ c.same d = true ∧
    ∀ field t, (field, .data t) ∈ d.kind.fields → r.Recalls naming d.componentType field →
      Dict.get? c'.kind.fields field = some (.data t)

/-- A load gave a component for the root of a graph, and below it, for every component of the graph, one
object with its id that has its data. -/
def KeepsData (r : Registry) (naming : NamingMode) (root : Component) (loaded : Loaded) : Prop :=
  ∃ L, loaded = .component L ∧ L.id = root.id ∧
    ∀ c, Component.Reaches Component.children root c →
      ∃ c', Component.Reaches Component.children L c' ∧ GivesDataBack r naming root c c' ∧
        ∀ d, Component.Reaches Component.children L d → d.id = c.id → d = c'

namespace Writer
variable {w : Writer} {root c d : Component} {field : String} {k : Kind} {t : Tree}
  {R : Component → Component → Prop} {s : LoadState} {G : w.FullGraph root}

namespace LegibleGraph
variable (H : w.LegibleGraph root)
include H

/-- Data in a field that comes back under its name comes back as it is. -/
theorem returned_data (hrelease : w.target.release = .current)
    (hc : Component.Reaches Component.children root c) (h : w.Returned R c.kind k)
    (ht : (field, .data t) ∈ c.kind.fields)
    (hrecalls : w.registry.Recalls w.target.naming c.componentType field) :
    Dict.get? k.fields field = some (.data t) := by
  have htype : c.componentType = c.kind.componentType := rfl
  have hfull := H.full.component c hc
  generalize hk : c.kind = k₀ at h ht htype
  cases h with
  | builtin h =>
    have hbuiltin := Kind.type_mem h.isBuiltin.1
    cases hrecalls with
    | declared hkept _ _ => exact absurd (htype ▸ hbuiltin) (H.not_builtin hkept)
    | builtin _ hplain =>
      refine h.get?_data ht ?_
      rw [← htype, shows, H.policy, hrelease, Policy.shows_current, hplain]
      rfl
  | extension hkept hnodup hfields =>
    cases hrecalls with
    | builtin hbuiltin _ =>
      rw [htype] at hbuiltin
      exact absurd hbuiltin (H.not_builtin hkept)
    | declared hkept' hdeclared hapart =>
      have hname : field ∈ c.kind.names := by
        rw [hk]
        exact Dict.mem_keys_of_mem ht
      rw [htype] at hkept'
      have hread := NamingMode.readAs_declared hdeclared hapart
      rw [← hkept.readAs_eq hkept' (hfull.spelled_not_protocol hname) (hfull.spelled_not_base hname)]
        at hread
      rw [← hread]
      exact get?_returned hfields hnodup ht

end LegibleGraph

/-- What stands for a component has its data. -/
theorem Sound.givesDataBack {given : String → Option Component} {c' : Component}
    (h : w.Sound root given s c.id c') (H : w.LegibleGraph root)
    (hrelease : w.target.release = .current)
    (hc : Component.Reaches Component.children root c) :
    GivesDataBack w.registry w.target.naming root c c' := by
  obtain ⟨a, b, ha, hb, hida, hidb, hread⟩ := h.restores.origin
  refine ⟨h.restores.id, ⟨a, ha, H.coherent c a hc ha hida.symm, hread.metadata⟩, b, hb,
    H.coherent c b hc hb hidb.symm, fun field t ht hrecalls => ?_⟩
  exact H.returned_data hrelease hb hread.kind ht hrecalls

end Writer

/-- A graph that is saved as one document at the current release is too deep, or it is loaded again, up
to the limits of the load, with all its data. -/
theorem load_keeps_data {extensions : List Plugin} {registry : Registry} {options : SaveOptions}
    {root : Component} (hregistry : Registry.ofPlugins extensions = .ok registry)
    (hrelease : options.release = .current) (hwhole : options.disaggregated = [])
    (hkinds : ∀ c, Component.Reaches Component.children root c →
      c.kind.Legible registry options.naming)
    (hmetadata : ∀ c, Component.Reaches Component.children root c →
      (Tree.map c.metadata).Plain options.naming)
    (hfields : ∀ c, Component.Reaches Component.children root c → ∀ f ∈ c.kind.fields,
      Policy.builtin.isSensitive c.componentType f.1 = false → f.2.Plain options.naming)
    (hids : ∀ c, Component.Reaches Component.children root c →
      2 ≤ (options.writer registry .builtin).occurrences root c.id → options.naming.IsPlain c.id)
    (hsame : Component.Coherent Component.children root) :
    (∀ e, save registry .builtin options root = .error e → e.IsTooDeep) ∧
    ∀ saved, save registry .builtin options root = .ok saved →
      ∀ (loading : LoadOptions) (supply : Supply), loading.naming = options.naming →
        loading.supplied = [] →
        Load.Yields (load registry loading saved.document supply)
          (KeepsData registry options.naming root) := by
  have hcurrent : (options.writer registry .builtin).target.release = .current := hrelease
  have H : (options.writer registry .builtin).LegibleGraph root := {
    owned := fun _ ht => Registry.owner?_builtin hregistry ht
    policy := rfl
    allowed := fun c _ => by rw [hcurrent, Policy.kindAllowed_current]
    kinds := hkinds
    metadata := hmetadata
    fields := fun c hc f hf => by
      have hshows := Writer.shows_of_mem_shown hf
      refine hfields c hc f (Writer.mem_shown hf) ?_
      rw [Writer.shows, hcurrent, Policy.shows_current, Bool.not_eq_true'] at hshows
      exact hshows
    ids := hids
    coherent := hsame }
  refine ⟨fun e he => (H.full.save_ends hwhole).of_error he, ?_⟩
  intro saved hsave loading supply hnaming hsupplied
  refine (H.load_whole hwhole hsave hnaming hsupplied supply).mono ?_
  rintro loaded ⟨l, L, t, rfl, hresolved, hL⟩
  refine ⟨L, rfl, hL.restores.id, fun c hc => ?_⟩
  obtain ⟨i, p⟩ := hc
  obtain ⟨c', hc', hsound⟩ := hL.exists_below hresolved (.refl root) p
  refine ⟨c', hc', hsound.givesDataBack H hrelease ⟨i, p⟩, fun d hd hid => ?_⟩
  have hmeaning := hL.closed d hd
  rw [hid, ← hsound.restores.id, hsound.closed c' (.refl c')] at hmeaning
  exact (Option.some.inj hmeaning).symm

/-! A note that holds a model, with data of which some keys mean something elsewhere; and three components
with data that is taken for more than that. -/
namespace Sample

def notes : Plugin := .generic "notes" "1" ["Note"] ["body"]

def labelled : Component :=
  .mk 1 "labelled" "Model" none [("component_type", .string "x"), ("id", .string "y")]
    (.modelConfig
      { provider := .openAi, modelId := "m", url := none, apiKey := none, apiType := none,
        parameters := some [("agentspec_version", .string "z")] })

def note : Component :=
  .mk 2 "note" "Note" none []
    (.extension "Note" [("body", .data (.map [("metadata", .list [.string "x"])])),
      ("model", .component labelled)])

theorem mem_note {c : Component} (h : Component.Reaches Component.children note c) :
    c ∈ [note, labelled] := by
  refine h.mem (by simp) ?_
  simp [note, labelled, Component.children, Component.kind, Kind.fields, ModelConfig.fields,
    heldComponents, optionalText, Value.componentsOfEntries, Value.components, Value.mapping]

theorem readsBag_note : Registry.ReadsBag ⟨[notes]⟩ .canonical "Note" note.kind.fields where
  kept := ⟨["body"], ⟨"notes", "1", ["Note"], rfl⟩, by decide +kernel⟩
  apart := by decide +kernel
  unreserved := by decide +kernel
  unlabelled := by
    simp [note, Component.kind, Kind.fields, Value.Unlabelled, Tree.Unlabelled,
      NamingMode.protocol]
  proper := ⟨trivial, trivial, trivial⟩

theorem legible_note {c : Component} (h : Component.Reaches Component.children note c) :
    c.kind.Legible ⟨[notes]⟩ .canonical := by
  have hall : ∀ c ∈ [note, labelled], c.kind.Legible ⟨[notes]⟩ .canonical := by
    rw [List.forall_mem_cons, List.forall_mem_singleton]
    refine ⟨.extension readsBag_note, .builtin ?_⟩
    intro hurl
    cases hurl
  exact hall c (mem_note h)

theorem plain_note {c : Component} (h : Component.Reaches Component.children note c) :
    c.Plain .canonical := by
  have hkeys : ∀ key ∈ ["note", "labelled", "component_type", "id", "metadata",
      "agentspec_version"], isReservedKey key = false ∧
        key ≠ NamingMode.canonical.protocol.componentRef ∧
        key ≠ NamingMode.canonical.protocol.referencedComponents := by decide
  have hplain : ∀ key ∈ ["note", "labelled", "component_type", "id", "metadata",
      "agentspec_version"], NamingMode.canonical.IsPlain key :=
    fun key hkey => ⟨(hkeys key hkey).1, (hkeys key hkey).2.1, (hkeys key hkey).2.2⟩
  simp only [List.forall_mem_cons] at hplain
  obtain ⟨hnote, hlabelled, htype, hid, hmetadata, hversion, -⟩ := hplain
  have hall : ∀ c ∈ [note, labelled], c.Plain .canonical := by
    rw [List.forall_mem_cons, List.forall_mem_singleton]
    refine ⟨⟨hnote, trivial, ?_⟩, hlabelled, ?_, ?_⟩
    · simp [note, Component.kind, Kind.fields, Value.Plain, Tree.Plain, hmetadata]
    · simp [labelled, Component.metadata, Tree.Plain, htype, hid]
    · simp [labelled, Component.kind, Kind.fields, ModelConfig.fields, optionalText, Value.Plain,
        Value.text, Value.mapping, Tree.Plain, hversion]
  exact hall c (mem_note h)

theorem coherent_note : Component.Coherent Component.children note := by
  have hall : ∀ c ∈ [note, labelled], ∀ d ∈ [note, labelled], c.id = d.id → c.same d = true := by
    decide +kernel
  exact fun c d hc hd => hall c (mem_note hc) d (mem_note hd)

theorem recalls_note (field : String) :
    Registry.Recalls ⟨[.generic "notes" "1" ["Note"] [field]]⟩ .canonical "Note" field :=
  .declared ⟨"notes", "1", ["Note"], rfl⟩ List.mem_cons_self
    fun _ hother _ => List.mem_singleton.mp hother

/-- Data that has the discriminator of components for a key. -/
def label : Tree := .map [("component_type", .string "x")]

def labelledNote : Component := .mk 3 "note" "Note" none [] (.extension "Note" [("body", .data label)])

/-- A model whose metadata has the key of references. -/
def referring : Component :=
  .mk 4 "model" "Model" none [("$component_ref", .string "x")] model.kind

/-- A note with a field that is spelled like the name that every record has. -/
def renamed : Component :=
  .mk 5 "note" "Note" none [] (.extension "Note" [("name", .data (.bool true))])

/-- Whether a component is saved and cannot be loaded again, without a limit that is passed. -/
def isLost (r : Registry) (c : Component) : Bool :=
  (save r .builtin .default c).toOption.any fun saved =>
    match load r .default saved.document ⟨0, 0⟩ with
    | .ok _ | .error (.inputTooLarge _ _) | .error (.tooDeep _) => false
    | .error _ => true

theorem exists_of_isLost {r : Registry} {c : Component} (h : isLost r c = true) :
    ∃ saved, save r .builtin .default c = .ok saved ∧
      ¬ Load.Yields (load r .default saved.document ⟨0, 0⟩) fun _ => True := by
  obtain ⟨saved, hsave, hload⟩ := exists_of_any h
  refine ⟨saved, hsave, fun hyields => ?_⟩
  split at hload
  · cases hload
  · cases hload
  · cases hload
  · rename_i e hlarge hdeep heq
    rw [heq] at hyields
    obtain ⟨size, limit, rfl⟩ | ⟨limit, rfl⟩ := hyields
    · exact hlarge size limit rfl
    · exact hdeep limit rfl

end Sample

theorem load_keeps_data_note : ∃ saved,
    save ⟨[Sample.notes]⟩ .builtin .default Sample.note = .ok saved ∧
    Load.Yields (load ⟨[Sample.notes]⟩ .default saved.document ⟨0, 0⟩)
      (KeepsData ⟨[Sample.notes]⟩ .canonical Sample.note) ∧
    (load ⟨[Sample.notes]⟩ .default saved.document ⟨0, 0⟩ matches .ok _) = true ∧
    Registry.Recalls ⟨[Sample.notes]⟩ .canonical "Note" "body" := by
  have hloads : (save ⟨[Sample.notes]⟩ .builtin .default Sample.note).toOption.any (fun saved =>
      (load ⟨[Sample.notes]⟩ .default saved.document ⟨0, 0⟩).isOk) = true := by
    decide +kernel
  obtain ⟨saved, hsave, hloads⟩ := exists_of_any hloads
  obtain ⟨loaded, hloaded⟩ := exists_of_isOk hloads
  have hregistry : Registry.ofPlugins [Sample.notes] = .ok ⟨[Sample.notes]⟩ := rfl
  have hrelease : SaveOptions.default.release = .current := rfl
  obtain ⟨-, hload⟩ := load_keeps_data hregistry hrelease rfl
    (fun _ => Sample.legible_note) (fun _ hc => (Sample.plain_note hc).metadata)
    (fun _ hc f hf _ => (Sample.plain_note hc).fields f hf) (fun _ hc _ => (Sample.plain_note hc).id)
    Sample.coherent_note
  refine ⟨saved, hsave, hload saved hsave .default ⟨0, 0⟩ rfl rfl, ?_, Sample.recalls_note "body"⟩
  rw [hloaded]

/-- Not all data is inert. In a field of an extension, what has the discriminator for a key is read as a
component; metadata that has the key of references is scanned as a reference; and a field of an extension
that is spelled like the name of the component takes its place. -/
theorem load_mistakes_data :
    (Sample.label.Unreserved ∧ Registry.Recalls ⟨[Sample.notes]⟩ .canonical "Note" "body" ∧
      ∃ saved, save ⟨[Sample.notes]⟩ .builtin .default Sample.labelledNote = .ok saved ∧
        ¬ Load.Yields (load ⟨[Sample.notes]⟩ .default saved.document ⟨0, 0⟩) fun _ => True) ∧
    ((Tree.map Sample.referring.metadata).Unreserved ∧
      ∃ saved, save .builtin .builtin .default Sample.referring = .ok saved ∧
        ¬ Load.Yields (load .builtin .default saved.document ⟨0, 0⟩) fun _ => True) ∧
    Registry.Recalls ⟨[.generic "notes" "1" ["Note"] ["name"]]⟩ .canonical "Note" "name" ∧
      ∃ saved, save ⟨[.generic "notes" "1" ["Note"] ["name"]]⟩ .builtin .default Sample.renamed =
          .ok saved ∧
        ¬ Load.Yields (load ⟨[.generic "notes" "1" ["Note"] ["name"]]⟩ .default saved.document
          ⟨0, 0⟩) fun _ => True := by
  have hlabelled : Sample.isLost ⟨[Sample.notes]⟩ Sample.labelledNote = true := by decide +kernel
  have hreferring : Sample.isLost .builtin Sample.referring = true := by decide +kernel
  have hrenamed : Sample.isLost ⟨[.generic "notes" "1" ["Note"] ["name"]]⟩ Sample.renamed = true := by
    decide +kernel
  have hmetadata : (Tree.map Sample.referring.metadata).Unreserved :=
    Tree.unreserved_iff.mpr (by decide)
  exact ⟨⟨Tree.unreserved_iff.mpr (by decide), Sample.recalls_note "body",
    Sample.exists_of_isLost hlabelled⟩, ⟨hmetadata, Sample.exists_of_isLost hreferring⟩,
    Sample.recalls_note "name", Sample.exists_of_isLost hrenamed⟩

end AgentGraph
