import AgentGraph.Proofs.Load.Document
/-!
# A document gives back what was saved

A graph with plain data that is saved as one document is read back, unless the load stops at a limit, as
a component that equals the root but for the fields that are kept out of the document, and in it every
id is one object. Which spelling the document has can be told from its root.
-/
namespace AgentGraph

/-- The load of a document gave a component back, with one object for every id. -/
def GivesBack (c : Component) (loaded : Loaded) : Prop :=
  ∃ L, loaded = .component L ∧ L.same c = true ∧
    ∀ d e, Component.Reaches Component.children L d → Component.Reaches Component.children L e →
      d.id = e.id → d = e

namespace Writer
variable {w : Writer} {root L : Component} {l : Layout} {r : Records} {x : String}
  {listed : List (String × Option String)} {exportSidecar : Bool} {saved : Saved}
  {G : w.FullGraph root} {given : String → Option Component} {t : LoadState}

theorem Sound.givesBack (h : w.Sound root given t root.id L) (hb : root.kind.isBuiltin = true) :
    GivesBack (root.hide w.shows) (.component L) := by
  refine ⟨L, rfl, h.restores.same root (.refl _) hb rfl, fun d e hd he hde => ?_⟩
  have hdm := h.closed d hd
  rw [hde, h.closed e he] at hdm
  exact (Option.some.inj hdm).symm

/-- The spelling of a document is told by the keys of its root. -/
theorem Outcome.detect_document (O : Outcome G listed exportSidecar l r saved)
    (B : w.BuiltinGraph root) :
    NamingMode.detect? saved.document = some w.target.naming := by
  obtain ⟨record, hdocument, hlaid, -⟩ := O.document_laid
  obtain ⟨e, he, hkeys⟩ := hlaid.keys_subset G O.planned
  rw [Kind.names_builtin (B.builtin e he)] at hkeys
  have hown : Dict.has record w.target.naming.protocol.componentType = true := by
    obtain ⟨c, d, -, -, -, hrecord⟩ := hlaid.stands G O.planned
    exact Dict.has_iff.mpr (Dict.mem_keys_iff.mpr ⟨_, hrecord.type⟩)
  have hother : ∀ type ∈ Builtin.types, ∀ key ∈ Builtin.recordKeys .alternate type,
      key ≠ NamingMode.canonical.protocol.componentType ∧
        key ≠ NamingMode.canonical.protocol.referencedComponents := by decide +kernel
  rw [hdocument, NamingMode.detect?]
  cases hnaming : w.target.naming with
  | canonical =>
    rw [hnaming] at hown
    simp [hown]
  | alternate =>
    rw [hnaming] at hown hkeys
    have hno : ∀ key, (∀ k ∈ Dict.keys record, k ≠ key) → Dict.has record key = false := by
      intro key hne
      rw [← Bool.not_eq_true, Dict.has_iff]
      exact fun hmem => hne key hmem rfl
    have htype' := hno _ fun k hk => (hother _ (Kind.type_mem (B.builtin e he)) k (hkeys k hk)).1
    have hside := hno _ fun k hk => (hother _ (Kind.type_mem (B.builtin e he)) k (hkeys k hk)).2
    simp [hown, htype', hside]

end Writer

/-- What is saved as one document is loaded again, with one component for every id. -/
theorem Writer.LegibleGraph.load_whole {registry : Registry} {options : SaveOptions}
    {root : Component} {saved : Saved} {loading : LoadOptions}
    (H : (options.writer registry .builtin).LegibleGraph root)
    (hwhole : options.disaggregated = [])
    (hsave : save registry .builtin options root = .ok saved)
    (hnaming : loading.naming = options.naming) (hsupplied : loading.supplied = [])
    (supply : Supply) :
    Load.Yields (load registry loading saved.document supply) fun loaded =>
      ∃ l L t, loaded = .component L ∧
        Writer.Resolved H.full l (fun _ => none)
          (fun x => ¬ Writer.Sided H.full.regular options.disaggregated x) t ∧
        (options.writer registry .builtin).Sound root (fun _ => none) t root.id L := by
  have hapart : AliasesApart (H.full.regular.dag.Reaches root.id) options.disaggregated := by
    rw [hwhole]
    exact aliasesApart_nil _
  obtain ⟨l, r, O⟩ := save_ok H.full hapart hsave
  have hout : ∀ x, ¬ Writer.Sided H.full.regular options.disaggregated x := by
    rintro x ⟨a, ha, -⟩
    exact ha (forcedName?_eq_none.mpr (by simp [hwhole]))
  have home : Writer.Home H.full l r (fun _ => none)
      (fun x => ¬ Writer.Sided H.full.regular options.disaggregated x)
      ⟨registry, loading.naming, options.release, loading.supplied,
        Writer.entriesWithin O.planned r root.id, loading.maxDepth⟩ :=
    O.home_document hapart hnaming rfl rfl
      (fun y name hy => absurd (O.planned.sided_of_aliased (by simp [hy])) (hout y))
      (by simp [hsupplied]) (fun _ _ hne => absurd rfl hne) (fun _ _ _ hL => by cases hL)
  refine (O.load_document hapart H hnaming supply home).mono ?_
  rintro loaded ⟨L, t, hloaded, hresolved, hL⟩
  exact ⟨l, L, t, hloaded, hresolved, hL⟩

/-- What is saved as one document is loaded again, up to what the policy keeps out of it. -/
theorem load_save {extensions : List Plugin} {registry : Registry} {options : SaveOptions}
    {root : Component} {saved : Saved}
    (hregistry : Registry.ofPlugins extensions = .ok registry)
    (hbuilt : ∀ c, Component.Reaches Component.children root c → c.kind.Built)
    (hallowed : ∀ c, Component.Reaches Component.children root c →
      Policy.builtin.kindAllowed c.componentType options.release = true)
    (hsame : Component.Coherent Component.children root)
    (hplain : ∀ c, Component.Reaches Component.children root c → c.Plain options.naming)
    (hwhole : options.disaggregated = [])
    (hsave : save registry .builtin options root = .ok saved) :
    NamingMode.detect? saved.document = some options.naming ∧
    ∀ (loading : LoadOptions) (supply : Supply), loading.naming = options.naming →
      loading.supplied = [] →
      Load.Yields (load registry loading saved.document supply)
        (GivesBack (root.hide (Policy.builtin.shows options.release))) := by
  have B := Writer.builtinGraph hregistry (fun c hc => (hbuilt c hc).isBuiltin) hallowed hsame
  have hlegible := Writer.legibleGraph hregistry hallowed (fun c hc => .builtin (hbuilt c hc)) hplain
    hsame
  have hapart : AliasesApart (hlegible.full.regular.dag.Reaches root.id) options.disaggregated := by
    rw [hwhole]
    exact aliasesApart_nil _
  obtain ⟨l, r, O⟩ := save_ok hlegible.full hapart hsave
  refine ⟨O.detect_document B, fun loading supply hnaming hsupplied => ?_⟩
  refine (hlegible.load_whole hwhole hsave hnaming hsupplied supply).mono ?_
  rintro loaded ⟨l, L, t, rfl, -, hL⟩
  exact hL.givesBack (hbuilt root (.refl _)).isBuiltin

namespace Sample

theorem made_empty : Slots.empty.Made := ⟨rfl, by simp [Slots.empty]⟩

theorem built {c : Component} (h : Component.Reaches Component.children team c) : c.kind.Built := by
  have hall : ∀ c ∈ [team, alice, bob, model, search], c.kind.Built := by
    simp only [List.forall_mem_cons]
    refine ⟨rfl, ⟨rfl, rfl, made_empty⟩, ⟨rfl, rfl, made_empty⟩, ?_, made_empty, by simp⟩
    intro hurl
    cases hurl
  exact hall c (mem_team h)

theorem plain {c : Component} (h : Component.Reaches Component.children team c) :
    c.Plain .canonical := by
  have hids : ∀ c ∈ [team, alice, bob, model, search],
      isReservedKey c.id = false ∧ c.id ≠ NamingMode.canonical.protocol.componentRef ∧
        c.id ≠ NamingMode.canonical.protocol.referencedComponents := by decide
  have hmetadata : ∀ c ∈ [team, alice, bob, model, search], c.metadata = [] := by
    simp [team, alice, bob, model, search, Component.metadata]
  have hfields : ∀ c ∈ [team, alice, bob, model, search], ∀ f ∈ c.kind.fields,
      f.2.Plain .canonical := by
    simp only [team, alice, bob, model, search, Component.kind, Kind.fields, ModelConfig.fields,
      Tool.fields, Slots.fields, Slots.empty, optionalText, List.forall_mem_cons, List.append_nil,
      List.cons_append, List.nil_append, Value.Plain, Value.text, Value.bool, Value.componentList,
      Value.propertyList, List.map_cons, List.map_nil, plainItems, Tree.Plain, Tree.keysAll_string,
      Tree.keysAll_bool]
    simp
  have hc := mem_team h
  refine ⟨⟨(hids c hc).1, (hids c hc).2.1, (hids c hc).2.2⟩, ?_, hfields c hc⟩
  rw [hmetadata c hc]
  trivial

end Sample

theorem load_save_team : ∃ saved, save .builtin .builtin .default Sample.team = .ok saved ∧
    NamingMode.detect? saved.document = some .canonical ∧
    Load.Yields (load .builtin .default saved.document ⟨0, 0⟩)
      (GivesBack (Sample.team.hide (Policy.builtin.shows .current))) ∧
    (load .builtin .default saved.document ⟨0, 0⟩ matches .ok _) = true := by
  have hloads : (save .builtin .builtin .default Sample.team).toOption.any (fun saved =>
      (load .builtin .default saved.document ⟨0, 0⟩).isOk) = true := by
    decide +kernel
  obtain ⟨saved, hsave, hloads⟩ := exists_of_any hloads
  obtain ⟨loaded, hloaded⟩ := exists_of_isOk hloads
  have hregistry : Registry.ofPlugins [] = .ok .builtin := rfl
  obtain ⟨hdetect, hload⟩ := load_save hregistry (fun _ => Sample.built) Sample.graph.allowed
    Sample.coherent (fun _ => Sample.plain) rfl hsave
  refine ⟨saved, hsave, hdetect, hload .default ⟨0, 0⟩ rfl rfl, ?_⟩
  rw [hloaded]

end AgentGraph
