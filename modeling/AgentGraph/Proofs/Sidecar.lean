import AgentGraph.Proofs.Document.Saved
/-!
# References have one home

The sidecar can be read on its own: what it refers to is defined in it. What the document refers to is
defined once, by a record of the document or on top of the sidecar.
-/
namespace AgentGraph

namespace Writer
variable {w : Writer} {root : Component} {l : Layout} {r : Records} {x y name : String}
  {record : Dict Tree} {records : List (Dict Tree)} {listed : List (String × Option String)}
  {exportSidecar : Bool} {saved : Saved} {G : w.FullGraph root}

/-- The entries of records of the graph are those that their ids carry. -/
theorem keys_definitions (h : ∀ record ∈ records, ∃ x, G.regular.dag.Reaches root.id x ∧
      w.Stands root l r x record) :
    Dict.keys (records.flatMap w.target.naming.definitions) =
      (records.filterMap recordId?).flatMap l.hosted := by
  induction records with
  | nil => rfl
  | cons record rest ih =>
    obtain ⟨⟨x, -, hs⟩, hrest⟩ := List.forall_mem_cons.mp h
    rw [List.flatMap_cons, Dict.keys_append, ih hrest, List.filterMap_cons_some hs.recordId,
      List.flatMap_cons, hs.definitions]
    simp [carriedEntries, Dict.keys, List.map_map, Function.comp_def]

theorem mem_top_iff : name ∈ Dict.keys (topEntries l r) ↔ ∃ y, (y, name) ∈ l.aliases := by
  simp [topEntries, Dict.keys]

namespace Outcome
variable (B : w.BuiltinGraph root) (O : Outcome G listed exportSidecar l r saved)
include B O

/-- A reference among records of the graph comes from the use of an id. -/
theorem exists_use (h : ∀ record ∈ records, ∃ x, G.regular.dag.Reaches root.id x ∧
      w.Stands root l r x record) (hname : name ∈ w.target.naming.references records) :
    ∃ record ∈ records, ∃ x y, G.regular.dag.Reaches root.id x ∧ w.Stands root l r x record ∧
      y ∈ G.regular.dag.kids x ∧ l.reference? y = some name := by
  obtain ⟨record, hrecord, hname⟩ := List.mem_flatMap.mp hname
  obtain ⟨x, hx, hs⟩ := h record hrecord
  rw [hs.uses B O.planned, List.filterMap_map, List.mem_filterMap] at hname
  obtain ⟨y, hy, hname⟩ := hname
  have hkid := (O.planned.surveyed.kidsAt_perm hx).mem_iff.mp hy
  refine ⟨record, hrecord, x, y, hx, hs, hkid, ?_⟩
  have hsy := O.stands (hx.trans (.kid hkid))
  simp only [Function.comp_apply, written, useOf] at hname
  cases href : l.reference? y with
  | some other =>
    simpa [href, NamingMode.reference?, referenceTo, Tree.field?, Dict.get?] using hname
  | none =>
    simp [href, NamingMode.reference?, Tree.field?, hsy.reference_none] at hname

theorem mem_document_ids : x ∈ (saved.documentRecords w.target.naming).filterMap recordId? ↔
    G.regular.dag.Reaches root.id x ∧ ¬ Sided G.regular listed x := by
  rw [O.document_listing B]
  exact O.planned.mem_document
    (fun x => (w.target.naming.records (.map (r.at x))).filterMap recordId?) (O.listing_eq B)

theorem mem_sidecar_ids (hexport : exportSidecar = true) :
    x ∈ (saved.sidecarRecords w.target.naming).filterMap recordId? ↔ Sided G.regular listed x := by
  rw [O.sidecar_listing hexport]
  exact O.planned.mem_sidecar
    (fun x => (w.target.naming.records (.map (r.at x))).filterMap recordId?) (O.listing_eq B)

theorem nodup_ids (hexport : exportSidecar = true) :
    ((saved.allRecords w.target.naming).filterMap recordId?).Nodup := by
  rw [Saved.allRecords, List.filterMap_append, O.document_listing B, O.sidecar_listing hexport]
  exact O.planned.nodup_listing
    (fun x => (w.target.naming.records (.map (r.at x))).filterMap recordId?) (O.listing_eq B)

theorem closed (hexport : exportSidecar = true) :
    ∀ name ∈ w.target.naming.references (saved.sidecarRecords w.target.naming),
      name ∈ Dict.keys (saved.sidecarEntries w.target.naming ++
        (saved.sidecarRecords w.target.naming).flatMap w.target.naming.definitions) := by
  intro name hname
  obtain ⟨record, hrecord, x, y, hx, hs, hy, href⟩ :=
    O.exists_use B (fun _ h => O.stands_of_mem_sidecar B hexport h) hname
  have hxs : Sided G.regular listed x :=
    (O.mem_sidecar_ids B hexport).mp (List.mem_filterMap.mpr ⟨record, hrecord, hs.recordId⟩)
  obtain ⟨a, ha, hax⟩ := hxs
  have hys : Sided G.regular listed y := ⟨a, ha, hax.trans (.kid hy)⟩
  rw [Dict.keys_append, List.mem_append, O.sidecarEntries_eq hexport,
    keys_definitions (G := G) fun _ h => O.stands_of_mem_sidecar B hexport h]
  rcases O.exists_home (hx.trans_below ⟨y, hy, .refl y⟩) href with ht | ⟨-, rfl, b, -, hb, hyb⟩
  · exact .inl (mem_top_iff.mpr ⟨y, Dict.mem_of_get? ht⟩)
  · have hbs := O.planned.sided_parent hb (List.mem_append_right _ hyb) hys
    exact .inr (List.mem_flatMap.mpr ⟨b, (O.mem_sidecar_ids B hexport).mpr hbs, hyb⟩)

/-- No two entries of the document have one name. -/
theorem nodup_document_entries (hexport : exportSidecar = true) :
    (((saved.documentRecords w.target.naming).filterMap recordId?).flatMap l.hosted).Nodup := by
  have hids := O.nodup_ids B hexport
  rw [Saved.allRecords, List.filterMap_append] at hids
  exact O.planned.nodup_hosted (List.nodup_append.mp hids).1 fun x hx => ((O.mem_document_ids B).mp hx).1

theorem defined (hexport : exportSidecar = true)
    (hapart : AliasesApart (G.regular.dag.Reaches root.id) listed) :
    ∀ name ∈ w.target.naming.references (saved.documentRecords w.target.naming),
      (Dict.keys ((saved.documentRecords w.target.naming).flatMap w.target.naming.definitions ++
        saved.sidecarEntries w.target.naming)).count name = 1 := by
  intro name hname
  obtain ⟨record, hrecord, x, y, hx, hs, hy, href⟩ :=
    O.exists_use B (fun _ h => O.stands_of_mem_document B h) hname
  have hbelow : G.regular.dag.Below root.id y := hx.trans_below ⟨y, hy, .refl y⟩
  have hxs := ((O.mem_document_ids B).mp (List.mem_filterMap.mpr ⟨record, hrecord, hs.recordId⟩)).2
  have hyname := O.planned.reference_name href
  have htop : (Dict.keys (topEntries l r)).Nodup := by
    simpa [topEntries, Dict.keys, List.map_map, Function.comp_def] using O.planned.nodup_names hapart
  have hentries := O.nodup_document_entries B hexport
  rw [Dict.keys_append, O.sidecarEntries_eq hexport,
    keys_definitions (G := G) fun _ h => O.stands_of_mem_document B h, List.count_append]
  rcases O.exists_home hbelow href with ht | ⟨hno, rfl, a, ha, hra, hya⟩
  · rw [List.count_eq_one_of_mem htop (mem_top_iff.mpr ⟨y, Dict.mem_of_get? ht⟩),
      List.count_eq_zero.mpr]
    intro hmem
    -- another id would go by the name of this one
    obtain ⟨z, -, hz⟩ := List.mem_flatMap.mp hmem
    obtain ⟨hreach, hno, hself⟩ := O.hosted_name hz
    obtain rfl := hapart.name_inj hreach hbelow.reaches (hself.trans hyname)
    rw [ht] at hno
    cases hno
  · have hax := ha.dominates.holder ha.ne hx hy
    have haout : ¬ Sided G.regular listed a := by
      rintro ⟨b, hb, hba⟩
      exact hxs ⟨b, hb, hba.trans hax⟩
    have hamem : a ∈ (saved.documentRecords w.target.naming).filterMap recordId? :=
      (O.mem_document_ids B).mpr ⟨hra, haout⟩
    rw [List.count_eq_one_of_mem hentries (List.mem_flatMap.mpr ⟨a, hamem, hya⟩),
      List.count_eq_zero.mpr]
    intro hmem
    obtain ⟨z, hz⟩ := mem_top_iff.mp hmem
    obtain ⟨hreach, hget, hzname⟩ := O.aliased_name hz
    obtain rfl := hapart.name_inj hreach hbelow.reaches (hzname.trans hyname)
    rw [hget] at hno
    cases hno

theorem writtenOnce (hexport : exportSidecar = true)
    (hapart : AliasesApart (G.regular.dag.Reaches root.id) listed) :
    w.WrittenOnce root listed saved where
  once c hc := by
    have hreach := G.regular.reaches_root (G.reaches_iff.mpr hc)
    refine List.count_eq_one_of_mem (O.nodup_ids B hexport) ?_
    rw [Saved.allRecords, List.filterMap_append, List.mem_append, (O.mem_document_ids B),
      O.mem_sidecar_ids B hexport]
    by_cases hs : Sided G.regular listed c.id
    · exact .inr hs
    · exact .inl ⟨hreach, hs⟩
  sidecar c _ := (O.mem_sidecar_ids B hexport).trans O.sided_iff
  full record h := by
    rcases List.mem_append.mp h with h | h
    · obtain ⟨x, -, hs⟩ := O.stands_of_mem_document B h
      exact O.full B hs
    · obtain ⟨x, -, hs⟩ := O.stands_of_mem_sidecar B hexport h
      exact O.full B hs
  entries p hp := by
    rcases List.mem_append.mp hp with hp | hp
    · obtain ⟨record, hrecord, hp⟩ := List.mem_flatMap.mp hp
      rcases List.mem_append.mp hrecord with h | h
      · obtain ⟨x, -, hs⟩ := O.stands_of_mem_document B h
        exact O.entry_of_hosted hs hp
      · obtain ⟨x, -, hs⟩ := O.stands_of_mem_sidecar B hexport h
        exact O.entry_of_hosted hs hp
    · exact O.entry_of_aliased (O.sidecarEntries_eq hexport ▸ hp)
  closed := O.closed B hexport
  defined := O.defined B hexport hapart

end Outcome

theorem FullGraph.apart (G : w.FullGraph root)
    (h : AliasesApart (fun x => ∃ c, Component.Reaches Component.children root c ∧ c.id = x) listed) :
    AliasesApart (G.regular.dag.Reaches root.id) listed :=
  h.mono fun _ hx => G.exists_at hx

end Writer

/-- Every record of a graph of builtin kinds is written once, and every reference has one home. -/
theorem save_writtenOnce {extensions : List Plugin} {registry : Registry} {options : SaveOptions}
    {root : Component} {saved : Saved}
    (hregistry : Registry.ofPlugins extensions = .ok registry)
    (hbuiltin : ∀ c, Component.Reaches Component.children root c → c.kind.isBuiltin = true)
    (hallowed : ∀ c, Component.Reaches Component.children root c →
      Policy.builtin.kindAllowed c.componentType options.release = true)
    (hsame : Component.Coherent Component.children root)
    (hapart : AliasesApart
      (fun x => ∃ c, Component.Reaches Component.children root c ∧ c.id = x) options.disaggregated)
    (hexport : options.exportSidecar = true)
    (hsave : save registry .builtin options root = .ok saved) :
    (options.writer registry .builtin).WrittenOnce root options.disaggregated saved := by
  have B := Writer.builtinGraph hregistry hbuiltin hallowed hsame
  have hapart' := B.full.apart hapart
  obtain ⟨l, r, O⟩ := save_ok B.full hapart' hsave
  exact O.writtenOnce B hexport hapart'

namespace Sample

/-- The team with its model in the sidecar under another name. -/
def split : SaveOptions :=
  { SaveOptions.default with disaggregated := [("model", some "shared-model")], exportSidecar := true }

theorem split_apart : AliasesApart
    (fun x => ∃ c, Component.Reaches Component.children team c ∧ c.id = x) split.disaggregated := by
  refine ⟨by decide, fun entry hentry name hname => ?_⟩
  obtain rfl := List.mem_singleton.mp hentry
  obtain rfl := Option.some.inj hname
  rintro ⟨c, hc, hid⟩
  have hall : ∀ c ∈ [team, alice, bob, model, search], c.id ≠ "shared-model" := by decide
  exact hall c (mem_team hc) hid

end Sample

theorem save_team_writtenOnce :
    ∃ saved, save .builtin .builtin Sample.split Sample.team = .ok saved ∧
      (Sample.split.writer .builtin .builtin).WrittenOnce Sample.team
        [("model", some "shared-model")] saved := by
  have hsaves : (save .builtin .builtin Sample.split Sample.team).isOk = true := by decide +kernel
  obtain ⟨saved, hsave⟩ := exists_of_isOk hsaves
  have hregistry : Registry.ofPlugins [] = .ok .builtin := rfl
  exact ⟨saved, hsave, save_writtenOnce hregistry Sample.graph.builtin Sample.graph.allowed
    Sample.coherent Sample.split_apart rfl hsave⟩

end AgentGraph
