import AgentGraph.Proofs.Inert
import AgentGraph.Proofs.Split
/-!
# Extensions come back

The record of an extension says nothing of the shape of its fields. If every field is declared to the
plugin, the declared names are spelled apart, and every list and mapping holds a component, then the
shapes are found again: the graph that is loaded equals the one that was saved, but for the fields of
builtin kinds that are kept out of documents.
-/
namespace AgentGraph
open List (Forall₂)

/-- Some names are spelled apart from each other, and from the keys of all records and the protocol; and
none of them is spelled like a reserved key. -/
structure NamingMode.TellsApart (naming : NamingMode) (declared : List String) : Prop where
  injective : ∀ a ∈ declared, ∀ b ∈ declared, naming.toDocument a = naming.toDocument b → a = b
  not_base : ∀ a ∈ declared, naming.toDocument a ∉ Record.baseFields
  not_protocol : ∀ a ∈ declared, naming.toDocument a ∉ naming.protocol.names
  unreserved : ∀ a ∈ declared, isReservedKey (naming.toDocument a) = false

mutual
/-- The shape of a value shows what it is: it is no property, and it holds a component if it is a list or
a mapping; so do all lists and mappings within. -/
def Value.Telling : Value → Prop
  | .data _ => True
  | .component _ => True
  | .property _ => False
  | .list items => Value.componentsOfList items ≠ [] ∧ tellingItems items
  | .map entries => Value.componentsOfEntries entries ≠ [] ∧ tellingEntries entries
/-- The shapes of the values of a list show what they are. -/
def tellingItems : List Value → Prop
  | [] => True
  | v :: rest => v.Telling ∧ tellingItems rest
/-- The shapes of the values of a mapping show what they are. -/
def tellingEntries : List (String × Value) → Prop
  | [] => True
  | (_, v) :: rest => v.Telling ∧ tellingEntries rest
end

theorem tellingEntries_iff {entries : Dict Value} :
    tellingEntries entries ↔ ∀ f ∈ entries, f.2.Telling := by
  induction entries with
  | nil => simp [tellingEntries]
  | cons f rest ih => simp [tellingEntries, ih]

/-- The fields of an extension are found again in its record, names and shapes. -/
structure Registry.Recovers (r : Registry) (naming : NamingMode) (type : String)
    (fields : Dict Value) : Prop where
  kept : ∃ declared, r.KeepsBags type declared ∧ naming.TellsApart declared ∧
    ∀ field ∈ Dict.keys fields, field ∈ declared
  keyed : (Dict.keys fields).Nodup
  proper : properEntries fields
  unlabelled : ∀ f ∈ fields, f.2.Unlabelled naming
  telling : ∀ f ∈ fields, f.2.Telling

/-- A kind comes back as it was: a builtin one as its constructor leaves it, or an extension of which names
and shapes are found again. -/
inductive Kind.Recoverable (r : Registry) (naming : NamingMode) : Kind → Prop
  | builtin {k : Kind} : k.Built → Recoverable r naming k
  | extension {type : String} {fields : Dict Value} : r.Recovers naming type fields →
      Recoverable r naming (.extension type fields)

namespace Registry.Recovers
variable {r : Registry} {naming : NamingMode} {type : String} {fields : Dict Value}

/-- A name that is declared comes back, whichever names the plugin is said to have. -/
theorem readAs_eq (h : r.Recovers naming type fields) {declared : List String}
    (hkept : r.KeepsBags type declared) {field : String} (hfield : field ∈ Dict.keys fields) :
    naming.readAs declared field = field := by
  obtain ⟨declared', hkept', hapart, hdeclared⟩ := h.kept
  have hmem := hdeclared field hfield
  rw [hkept.readAs_eq hkept' (hapart.not_protocol field hmem) (hapart.not_base field hmem)]
  exact NamingMode.readAs_declared hmem fun other hother => hapart.injective other hother field hmem

theorem readsBag (h : r.Recovers naming type fields) : r.ReadsBag naming type fields where
  kept := by
    obtain ⟨declared, hkept, -⟩ := h.kept
    refine ⟨declared, hkept, ?_⟩
    rw [List.map_congr_left fun field hfield => h.readAs_eq hkept hfield, List.map_id']
    exact h.keyed
  apart := by
    obtain ⟨declared, -, hapart, hdeclared⟩ := h.kept
    have hengine : (naming.protocol.names ++ Record.baseFields).Nodup := by
      cases naming <;> decide
    rw [List.append_assoc]
    refine List.nodup_append.mpr ⟨?_, hengine, ?_⟩
    · exact h.keyed.map_on fun a ha b hb =>
        hapart.injective a (hdeclared a ha) b (hdeclared b hb)
    · rintro key hkey other hother rfl
      obtain ⟨field, hfield, rfl⟩ := List.mem_map.mp hkey
      rcases List.mem_append.mp hother with hprotocol | hbase
      · exact hapart.not_protocol field (hdeclared field hfield) hprotocol
      · exact hapart.not_base field (hdeclared field hfield) hbase
  unreserved field hfield := by
    obtain ⟨declared, -, hapart, hdeclared⟩ := h.kept
    exact hapart.unreserved field (hdeclared field hfield)
  unlabelled := h.unlabelled
  proper := h.proper

end Registry.Recovers

theorem Kind.Recoverable.legible {r : Registry} {naming : NamingMode} {k : Kind}
    (h : k.Recoverable r naming) : k.Legible r naming := by
  cases h with
  | builtin h => exact .builtin h
  | extension h => exact .extension h.readsBag

section Redact
variable (shows : String → String → Bool)

mutual
/-- A component without the fields that are not shown, at every depth. Builtin kinds hold builtin kinds
only. -/
def Component.redact : Component → Component
  | .mk handle id name description metadata kind =>
    .mk handle id name description metadata kind.redact
/-- A kind without the fields that are not shown; all fields of an extension stay. -/
def Kind.redact : Kind → Kind
  | .extension type fields => .extension type (redactEntries fields)
  | kind => kind.hide shows
/-- A value, with the components that it holds without the fields that are not shown. -/
def Value.redact : Value → Value
  | .data t => .data t
  | .component c => .component c.redact
  | .property p => .property p
  | .list items => .list (redactItems items)
  | .map entries => .map (redactEntries entries)
def redactItems : List Value → List Value
  | [] => []
  | v :: rest => v.redact :: redactItems rest
def redactEntries : List (String × Value) → List (String × Value)
  | [] => []
  | (key, v) :: rest => (key, v.redact) :: redactEntries rest
end

end Redact

section Redacted
variable {shows : String → String → Bool}

theorem redactEntries_eq (entries : Dict Value) :
    redactEntries shows entries = Dict.mapValues (Value.redact shows) entries := by
  induction entries with
  | nil => rw [redactEntries]; rfl
  | cons f rest ih => rw [redactEntries, ih]; rfl

theorem Component.redact_of_builtin {c : Component} (h : c.kind.isBuiltin = true) :
    c.redact shows = c.hide shows := by
  obtain ⟨handle, id, name, description, metadata, k⟩ := c
  rw [Component.redact, Component.hide]
  cases k with
  | extension type fields => cases h
  | _ => simp only [Kind.redact]

mutual
/-- Values are as they were if the components that they hold are. -/
theorem Value.redact_eq {v : Value} (h : ∀ c ∈ v.components, c.redact shows = c) :
    v.redact shows = v := by
  match v with
  | .data _ | .property _ => rw [Value.redact]
  | .component c => rw [Value.redact, h c (by simp)]
  | .list items =>
    rw [Value.components] at h
    rw [Value.redact, redactItems_same h]
  | .map entries =>
    rw [Value.components] at h
    rw [Value.redact, redactEntries_same h]
theorem redactItems_same {items : List Value}
    (h : ∀ c ∈ Value.componentsOfList items, c.redact shows = c) :
    redactItems shows items = items := by
  match items with
  | [] => rw [redactItems]
  | v :: rest =>
    rw [Value.componentsOfList] at h
    obtain ⟨hv, hrest⟩ := List.forall_mem_append.mp h
    rw [redactItems, Value.redact_eq hv, redactItems_same hrest]
theorem redactEntries_same {entries : List (String × Value)}
    (h : ∀ c ∈ Value.componentsOfEntries entries, c.redact shows = c) :
    redactEntries shows entries = entries := by
  match entries with
  | [] => rw [redactEntries]
  | (key, v) :: rest =>
    rw [Value.componentsOfEntries] at h
    obtain ⟨hv, hrest⟩ := List.forall_mem_append.mp h
    rw [redactEntries, Value.redact_eq hv, redactEntries_same hrest]
end

/-- At the current release nothing is taken from a graph without secrets. -/
theorem Component.redact_eq {c : Component}
    (h : ∀ d, Component.Reaches Component.children c d → d.kind.HoldsNoSecret) :
    c.redact (Policy.builtin.shows .current) = c := by
  induction hn : c.weight using Nat.strongRecOn generalizing c with
  | _ n ih =>
    subst hn
    cases hb : c.kind.isBuiltin with
    | true => rw [redact_of_builtin hb, hide_eq h]
    | false =>
      have hheld : ∀ d ∈ c.children, d.redact (Policy.builtin.shows .current) = d := fun d hd =>
        ih _ (weight_lt_of_child hd) (fun e he => h e (.step hd he)) rfl
      obtain ⟨handle, id, name, description, metadata, k⟩ := c
      cases k with
      | extension type fields =>
        have hfields : redactEntries (Policy.builtin.shows .current) fields = fields :=
          redactEntries_same hheld
        rw [Component.redact, Kind.redact, hfields]
      | _ => cases hb

end Redacted

section Same
variable {shows : String → String → Bool} {R : Component → Component → Prop}

/-- Components that were read back for some equal all their equals, without what is not shown. -/
def CarriesBack (shows : String → String → Bool) (R : Component → Component → Prop)
    (cs ds : List Component) : Prop :=
  ∀ c c' d, c' ∈ cs → d ∈ ds → R c c' → c.same d = true → c'.same (d.redact shows) = true

theorem CarriesBack.mono {cs cs' ds ds' : List Component} (h : CarriesBack shows R cs' ds')
    (hcs : ∀ c ∈ cs, c ∈ cs') (hds : ∀ d ∈ ds, d ∈ ds') : CarriesBack shows R cs ds :=
  fun c c' d hc hd => h c c' d (hcs c' hc) (hds d hd)

theorem ReturnedEntries.length_eq {xs ys : List (String × Value)} (h : ReturnedEntries R xs ys) :
    xs.length = ys.length := by
  induction xs generalizing ys with
  | nil =>
    cases h
    rfl
  | cons f rest ih =>
    cases h with
    | cons _ hrest => rw [List.length_cons, List.length_cons, ih hrest]

mutual
/-- A value that shows what it is comes back as it was. -/
theorem ReturnedValue.same {v v' u : Value} (h : ReturnedValue R v v') (ht : v.Telling)
    (hR : CarriesBack shows R v'.components u.components) (hs : v.same u = true) :
    v'.same (u.redact shows) = true := by
  match h with
  | .data t =>
    cases u with
    | data _ => rwa [Value.redact]
    | _ => simp [Value.same] at hs
  | .property _ => exact ht.elim
  | @ReturnedValue.component _ c c' hc =>
    cases u with
    | component d =>
      rw [Value.same] at hs
      rw [Value.redact, Value.same]
      exact hR c c' d (by simp) (by simp) hc hs
    | _ => simp [Value.same] at hs
  | .list hitems =>
    cases u with
    | list us =>
      rw [Value.same] at hs
      rw [Value.redact, Value.same]
      exact hitems.same ht.2 (by simpa only [Value.components] using hR) hs
    | _ => simp [Value.same] at hs
  | @ReturnedValue.map _ _ entries' hentries =>
    cases u with
    | map us =>
      rw [Value.same, Bool.and_eq_true, beq_iff_eq] at hs
      have hlength : entries'.length = (redactEntries shows us).length := by
        rw [redactEntries_eq, Dict.mapValues, List.length_map, ← hs.1, hentries.length_eq]
      rw [Value.redact, Value.same, Bool.and_eq_true, beq_iff_eq]
      exact ⟨hlength, hentries.same ht.2 (by simpa only [Value.components] using hR) hs.2⟩
    | _ => simp [Value.same] at hs
  | .bareList _ hbare => exact absurd hbare ht.1
  | .bareMap _ hbare => exact absurd hbare ht.1
theorem ReturnedItems.same {items items' us : List Value} (h : ReturnedItems R items items')
    (ht : tellingItems items)
    (hR : CarriesBack shows R (Value.componentsOfList items') (Value.componentsOfList us))
    (hs : sameValues items us = true) : sameValues items' (redactItems shows us) = true := by
  match h with
  | .nil =>
    cases us with
    | nil => rwa [redactItems]
    | cons u us => simp [sameValues] at hs
  | .cons hv hrest =>
    cases us with
    | nil => simp [sameValues] at hs
    | cons u us =>
      rw [sameValues, Bool.and_eq_true] at hs
      rw [Value.componentsOfList, Value.componentsOfList] at hR
      rw [redactItems, sameValues, Bool.and_eq_true]
      exact ⟨hv.same ht.1 (hR.mono (fun _ => List.mem_append_left _) fun _ =>
          List.mem_append_left _) hs.1,
        hrest.same ht.2 (hR.mono (fun _ => List.mem_append_right _) fun _ =>
          List.mem_append_right _) hs.2⟩
theorem ReturnedEntries.same {entries entries' us : List (String × Value)}
    (h : ReturnedEntries R entries entries') (ht : tellingEntries entries)
    (hR : CarriesBack shows R (Value.componentsOfEntries entries') (Value.componentsOfEntries us))
    (hs : sameFields entries us = true) :
    sameFields entries' (redactEntries shows us) = true := by
  match h with
  | .nil => rw [sameFields]
  | @ReturnedEntries.cons _ key _ _ _ _ hv hrest =>
    obtain ⟨⟨u, hu, hvu⟩, hs⟩ := List.forall_mem_cons.mp (sameFields_iff.mp hs)
    have hbelow : ∀ d ∈ u.components, d ∈ Value.componentsOfEntries us := fun d hd =>
      mem_heldComponents (Dict.mem_of_get? hu) hd
    rw [Value.componentsOfEntries] at hR
    have hback := hv.same ht.1 (hR.mono (fun _ => List.mem_append_left _) hbelow) hvu
    have hfound : Dict.get? (redactEntries shows us) key = some (u.redact shows) := by
      rw [redactEntries_eq, Dict.get?_mapValues, hu]
      rfl
    rw [sameFields, hfound, Bool.and_eq_true]
    exact ⟨hback, hrest.same ht.2 (hR.mono (fun _ => List.mem_append_right _) fun _ => id)
      (sameFields_iff.mpr hs)⟩
end

end Same

namespace Writer
variable {w : Writer} {root e M : Component} {l : Layout} {t : LoadState} {Local : String → Prop}

/-- Fields whose names are read as they are come back under their names. -/
theorem returnedEntries {R : Component → Component → Prop} {declared : List String}
    {fields fields' : Dict Value} (h : Forall₂ (w.ReturnedField R declared) fields fields')
    (hnames : ∀ field ∈ Dict.keys fields, w.target.naming.readAs declared field = field) :
    ReturnedEntries R fields fields' := by
  induction h with
  | nil => exact .nil
  | @cons f f' _ _ hf _ ih =>
    obtain ⟨key, v⟩ := f
    obtain ⟨key', v'⟩ := f'
    obtain ⟨hname, hrest⟩ := List.forall_mem_cons.mp hnames
    obtain ⟨rfl, hv⟩ : key' = key ∧ ReturnedValue R v v' := ⟨hf.1.trans hname, hf.2⟩
    exact .cons hv (ih hrest)

/-- The fields of an extension of which names and shapes are found again come back as they were. -/
theorem Returned.same_redact {R : Component → Component → Prop} {k k' : Kind} {type : String}
    {us : Dict Value} (h : w.Returned R k k') (hk : k.Recoverable w.registry w.target.naming)
    (hR : CarriesBack w.shows R (heldComponents k'.fields) (heldComponents us))
    (hs : k.same (.extension type us) = true) :
    k'.same (.extension type (redactEntries w.shows us)) = true := by
  cases h with
  | builtin h =>
    have hbuiltin := h.isBuiltin.1
    cases k with
    | extension _ _ => cases hbuiltin
    | _ => simp [Kind.same] at hs
  | @extension _ fields fields' declared hkept hnodup hfields =>
    cases hk with
    | builtin hbuilt => exact hbuilt.elim
    | extension hrecovers =>
      rw [Kind.same, Bool.and_eq_true, Bool.and_eq_true, beq_iff_eq, beq_iff_eq] at hs
      obtain ⟨⟨rfl, hlength⟩, hs⟩ := hs
      have hentries := returnedEntries hfields fun _ => hrecovers.readAs_eq hkept
      have hback := hentries.same (tellingEntries_iff.mpr hrecovers.telling) hR hs
      have hlength' : fields'.length = (redactEntries w.shows us).length := by
        rw [redactEntries_eq, Dict.mapValues, List.length_map, ← hlength, hentries.length_eq]
      rw [Kind.same, Bool.and_eq_true, Bool.and_eq_true, beq_iff_eq, beq_iff_eq]
      exact ⟨⟨rfl, hlength'⟩, hback⟩

/-- What a component holds that stands for an id stands for its own id. -/
theorem Sound.held {G : w.FullGraph root} (hresolved : Resolved G l (fun _ => none) Local t)
    {x : String} (h : w.Sound root (fun _ => none) t x M) {d : Component} (hd : d ∈ M.children) :
    w.Sound root (fun _ => none) t d.id d := by
  have hmeaning : t.resolved? d.id = some d := h.closed d (.kid (.refl M) hd)
  obtain ⟨y, -, -, -, hsound⟩ := hresolved _ _ (LoadState.resolved?_eq_some.mp hmeaning)
  rwa [← hsound.restores.id] at hsound

/-- Where all shapes are found again, what stands for a component equals it, without what is not shown. -/
theorem Sound.same_redact (H : w.LegibleGraph root)
    (hkinds : ∀ c, Component.Reaches Component.children root c →
      c.kind.Recoverable w.registry w.target.naming)
    (hresolved : Resolved H.full l (fun _ => none) Local t)
    (h : w.Sound root (fun _ => none) t e.id M)
    (he : Component.Reaches Component.children root e) : M.same (e.redact w.shows) = true := by
  induction hn : e.weight using Nat.strongRecOn generalizing e M with
  | _ n ih =>
    subst hn
    cases hb : e.kind.isBuiltin with
    | true =>
      rw [Component.redact_of_builtin hb]
      exact h.restores.same e he hb rfl
    | false =>
      obtain ⟨c, d, hc, hd, hidc, hidd, hread⟩ := h.restores.origin
      obtain ⟨-, hname, hdescription, hmetadata, -⟩ :=
        Component.same_iff.mp (H.coherent c e hc he hidc)
      obtain ⟨-, -, -, -, hkind⟩ := Component.same_iff.mp (H.coherent d e hd he hidd)
      -- what the component holds equals what the graph has for it
      have hcarries : CarriesBack w.shows (fun a a' => a'.id = a.id) M.children e.children := by
        intro a a' b ha' hb' hid hab
        have hsound := h.held hresolved ha'
        rw [hid, Component.same_id hab] at hsound
        exact ih _ (Component.weight_lt_of_child hb') hsound (he.kid hb') rfl
      obtain ⟨handle, id, name, description, metadata, k⟩ := e
      cases k with
      | extension type us =>
        rw [Component.redact, Kind.redact]
        refine Component.same_iff.mpr ⟨h.restores.id, hread.name.trans hname,
          hread.description.trans hdescription, ?_, ?_⟩
        · rw [hread.metadata]
          exact hmetadata
        · exact hread.kind.same_redact (hkinds d hd) hcarries hkind
      | _ => cases hb

/-- Where all shapes are found again, a component that stands for the root gives it back. -/
theorem Sound.givesBack_redact (H : w.LegibleGraph root)
    (hkinds : ∀ c, Component.Reaches Component.children root c →
      c.kind.Recoverable w.registry w.target.naming)
    (hresolved : Resolved H.full l (fun _ => none) Local t)
    (h : w.Sound root (fun _ => none) t root.id M) :
    GivesBack (root.redact w.shows) (.component M) := by
  refine ⟨M, rfl, h.same_redact H hkinds hresolved (.refl root), fun d e hd he hde => ?_⟩
  have hmeaning := h.closed d hd
  rw [hde, h.closed e he] at hmeaning
  exact (Option.some.inj hmeaning).symm

end Writer

/-- A graph of builtin kinds and extensions of which names and shapes are found again is too deep, or it is
loaded again, up to the limits of the load, as it was but for what the policy keeps out of documents. -/
theorem load_save_extensions {extensions : List Plugin} {registry : Registry}
    {options : SaveOptions} {root : Component}
    (hregistry : Registry.ofPlugins extensions = .ok registry)
    (hrelease : options.release = .current) (hwhole : options.disaggregated = [])
    (hkinds : ∀ c, Component.Reaches Component.children root c →
      c.kind.Recoverable registry options.naming)
    (hplain : ∀ c, Component.Reaches Component.children root c → c.Plain options.naming)
    (hsame : Component.Coherent Component.children root) :
    (∀ e, save registry .builtin options root = .error e → e.IsTooDeep) ∧
    ∀ saved, save registry .builtin options root = .ok saved →
      ∀ (loading : LoadOptions) (supply : Supply), loading.naming = options.naming →
        loading.supplied = [] →
        Load.Yields (load registry loading saved.document supply) fun loaded =>
          GivesBack (root.redact (Policy.builtin.shows .current)) loaded ∧
          ((∀ c, Component.Reaches Component.children root c → c.kind.HoldsNoSecret) →
            GivesBack root loaded) := by
  have hallowed : ∀ c, Component.Reaches Component.children root c →
      Policy.builtin.kindAllowed c.componentType options.release = true := fun c _ => by
    rw [hrelease]
    exact Policy.kindAllowed_current _ _
  have H := Writer.legibleGraph hregistry hallowed (fun c hc => (hkinds c hc).legible) hplain hsame
  refine ⟨fun e he => (H.full.save_ends hwhole).of_error he, ?_⟩
  intro saved hsave loading supply hnaming hsupplied
  refine (H.load_whole hwhole hsave hnaming hsupplied supply).mono ?_
  rintro loaded ⟨l, L, t, rfl, hresolved, hL⟩
  have hback := hL.givesBack_redact H hkinds hresolved
  have hshows : (options.writer registry .builtin).shows = Policy.builtin.shows .current := by
    rw [← hrelease]
    rfl
  rw [hshows] at hback
  exact ⟨hback, fun hopen => Component.redact_eq hopen ▸ hback⟩

/-! A page that holds another page twice, in a field and deep in a mapping; both hold one model. -/
namespace Sample

def diary : Plugin := .generic "diary" "1" ["Page"] ["useMTLSConfig", "entries", "parent"]

def yesterday : Component :=
  .mk 6 "yesterday" "Yesterday" none [] (.extension "Page"
    [("useMTLSConfig", .data (.bool true)),
      ("entries", .list [.data (.map [("id", .string "x")]), .component model])])

def today : Component :=
  .mk 7 "today" "Today" none [] (.extension "Page"
    [("parent", .component yesterday),
      ("entries", .map [("first", .component model), ("others", .list [.component yesterday])])])

theorem mem_today {c : Component} (h : Component.Reaches Component.children today c) :
    c ∈ [today, yesterday, model] := by
  refine h.mem (by simp) ?_
  simp [today, yesterday, model, Component.children, Component.kind, Kind.fields, ModelConfig.fields,
    heldComponents, optionalText, Value.componentsOfEntries, Value.components,
    Value.componentsOfList]

theorem tellsApart_diary :
    NamingMode.canonical.TellsApart ["useMTLSConfig", "entries", "parent"] where
  injective := by decide +kernel
  not_base := by decide +kernel
  not_protocol := by decide +kernel
  unreserved := by decide +kernel

theorem recoverable_today {c : Component} (h : Component.Reaches Component.children today c) :
    c.kind.Recoverable ⟨[diary]⟩ .canonical := by
  have hkept : Registry.KeepsBags ⟨[diary]⟩ "Page" ["useMTLSConfig", "entries", "parent"] :=
    ⟨"diary", "1", ["Page"], rfl⟩
  have hall : ∀ c ∈ [today, yesterday, model], c.kind.Recoverable ⟨[diary]⟩ .canonical := by
    simp only [List.forall_mem_cons]
    refine ⟨.extension ⟨⟨_, hkept, tellsApart_diary, by decide⟩, by decide, ?_, ?_, ?_⟩,
      .extension ⟨⟨_, hkept, tellsApart_diary, by decide⟩, by decide, ?_, ?_, ?_⟩, .builtin ?_,
      by simp⟩
    · simp [properEntries, Value.Proper, properItems]
    · simp [Value.Unlabelled, unlabelledEntries, unlabelledItems, NamingMode.protocol]
    · simp [Value.Telling, tellingEntries, tellingItems, Value.componentsOfEntries,
        Value.componentsOfList]
    · simp [properEntries, Value.Proper, properItems]
    · simp [Value.Unlabelled, unlabelledItems, Tree.Unlabelled, NamingMode.protocol]
    · simp [Value.Telling, tellingItems, Value.componentsOfList]
    · intro hurl
      cases hurl
  exact hall c (mem_today h)

theorem plain_today {c : Component} (h : Component.Reaches Component.children today c) :
    c.Plain .canonical := by
  have hkeys : ∀ key ∈ ["today", "yesterday", "model", "first", "others", "id"],
      isReservedKey key = false ∧ key ≠ NamingMode.canonical.protocol.componentRef ∧
        key ≠ NamingMode.canonical.protocol.referencedComponents := by decide
  have hplain : ∀ key ∈ ["today", "yesterday", "model", "first", "others", "id"],
      NamingMode.canonical.IsPlain key :=
    fun key hkey => ⟨(hkeys key hkey).1, (hkeys key hkey).2.1, (hkeys key hkey).2.2⟩
  simp only [List.forall_mem_cons] at hplain
  obtain ⟨htoday, hyesterday, hmodel, hfirst, hothers, hid, -⟩ := hplain
  have hall : ∀ c ∈ [today, yesterday, model], c.Plain .canonical := by
    simp only [List.forall_mem_cons]
    refine ⟨⟨htoday, trivial, ?_⟩, ⟨hyesterday, trivial, ?_⟩, ⟨hmodel, trivial, ?_⟩, by simp⟩
    · simp [today, Component.kind, Kind.fields, Value.Plain, plainEntries, plainItems, hfirst,
        hothers]
    · simp [yesterday, Component.kind, Kind.fields, Value.Plain, plainItems, Tree.Plain, hid]
    · simp [model, Component.kind, Kind.fields, ModelConfig.fields, optionalText, Value.Plain,
        Value.text, Tree.Plain]
  exact hall c (mem_today h)

theorem coherent_today : Component.Coherent Component.children today := by
  have hall : ∀ c ∈ [today, yesterday, model], ∀ d ∈ [today, yesterday, model],
      c.id = d.id → c.same d = true := by decide +kernel
  exact fun c d hc hd => hall c (mem_today hc) d (mem_today hd)

end Sample

theorem load_save_extensions_pages : ∃ saved,
    save ⟨[Sample.diary]⟩ .builtin .default Sample.today = .ok saved ∧
    Load.Yields (load ⟨[Sample.diary]⟩ .default saved.document ⟨0, 0⟩) (GivesBack Sample.today) ∧
    (load ⟨[Sample.diary]⟩ .default saved.document ⟨0, 0⟩ matches .ok _) = true := by
  have hloads : (save ⟨[Sample.diary]⟩ .builtin .default Sample.today).toOption.any (fun saved =>
      (load ⟨[Sample.diary]⟩ .default saved.document ⟨0, 0⟩).isOk) = true := by
    decide +kernel
  obtain ⟨saved, hsave, hloads⟩ := exists_of_any hloads
  obtain ⟨loaded, hloaded⟩ := exists_of_isOk hloads
  have hregistry : Registry.ofPlugins [Sample.diary] = .ok ⟨[Sample.diary]⟩ := rfl
  have hopen : ∀ c, Component.Reaches Component.children Sample.today c →
      c.kind.HoldsNoSecret := by
    intro c hc f hf hs
    have hall : ∀ c ∈ [Sample.today, Sample.yesterday, Sample.model], ∀ f ∈ c.kind.fields,
        Policy.builtin.isSensitive c.kind.componentType f.1 = false := by decide +kernel
    rw [hall c (Sample.mem_today hc) f hf] at hs
    cases hs
  have hrelease : SaveOptions.default.release = .current := rfl
  obtain ⟨-, hload⟩ := load_save_extensions hregistry hrelease rfl (fun _ => Sample.recoverable_today)
    (fun _ => Sample.plain_today) Sample.coherent_today
  refine ⟨saved, hsave, (hload saved hsave .default ⟨0, 0⟩ rfl rfl).mono fun _ h => h.2 hopen, ?_⟩
  rw [hloaded]

end AgentGraph
