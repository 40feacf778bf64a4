import AgentGraph.Proofs.BuiltinGraph
import AgentGraph.Proofs.Depth.Record
import AgentGraph.Proofs.Record.Keys
/-!
# How deep documents are

The writer counts a level for every value that it goes down to. What it does not count are the level that
an empty list or mapping or a record without nested entries takes at the limit itself, the levels of
schemas, and the level of the mapping that carries records for others. So a document that was written
within a limit may be deeper than the limit, but not more than twice as deep.
-/
namespace AgentGraph
namespace Writer
variable {w : Writer} {root : Component} {h : w.Regular root} {l : Layout}
  {listed : List (String × Option String)} {r r' : Dict (Dict Tree)} {extra slack : Nat}
  {s₀ : Survey} {table : PlacementTable}

/-- The records of the sidecar are all there once the record of the root is. -/
theorem sidecarEntries_known (hs : w.Surveyed h root.id s₀ table l.survey)
    {listed : List (String × String)}
    (hids : ∀ p ∈ listed, h.dag.Reaches root.id p.1 ∧ p.1 ∈ Dict.keys r)
    {P : Tree → Prop}
    (hP : ∀ p ∈ listed, ∀ record, Dict.get? r p.1 = some record → P (.map record))
    {start entries : Dict Tree} (hstart : ∀ f ∈ start, P f.2)
    (hrun : w.sidecarEntries l listed start r = .ok (entries, r')) : ∀ f ∈ entries, P f.2 := by
  induction listed generalizing start with
  | nil =>
    obtain ⟨rfl, rfl⟩ := run_pure_ok hrun
    exact hstart
  | cons p rest ih =>
    obtain ⟨⟨hy, hmem⟩, hrest⟩ := List.forall_mem_cons.mp hids
    obtain ⟨hPy, hPrest⟩ := List.forall_mem_cons.mp hP
    obtain ⟨y, reference⟩ := p
    obtain ⟨d, hd, rfl, -⟩ := hs.exists_found hy
    obtain ⟨record, hknown⟩ := Dict.mem_keys_iff.mp hmem
    rw [sidecarEntries] at hrun
    simp only [component?_found hd] at hrun
    obtain ⟨record', r₁, hrec, h₁⟩ := run_bind_ok hrun
    rw [record_known hknown] at hrec
    obtain ⟨rfl, rfl⟩ := Prod.mk.inj (Except.ok.inj hrec)
    exact ih hrest hPrest (Dict.forall_mem_put hstart (hPy record hknown)) h₁

/-- The sidecar carries records that were built below the root, while that of the root was. -/
theorem sidecarDocument_within (P : w.Planned h listed l) {record : Dict Tree}
    (hdrawn : Drawn h l extra slack 0 root.id record [] r) (hsome : l.aliases ≠ []) {sidecar : Tree}
    (hrun : w.sidecarDocument l (Dict.put r root.id record) = .ok (sidecar, r')) :
    sidecar.depth ≤ w.allowance extra slack 0 := by
  unfold sidecarDocument at hrun
  obtain ⟨entries, r₁, hentries, hrun⟩ := run_bind_ok hrun
  obtain ⟨rfl, rfl⟩ := run_pure_ok hrun
  have hbelow : ∀ p ∈ l.aliases, h.dag.Below root.id p.1 := fun p hp =>
    P.below_of_aliased (by simp [Dict.get?_of_mem P.nodup hp])
  have hids : ∀ p ∈ l.aliases, h.dag.Reaches root.id p.1 ∧
      p.1 ∈ Dict.keys (Dict.put r root.id record) := fun p hp =>
    ⟨(hbelow p hp).reaches, hdrawn.complete_put.reaches (by simp [Dict.mem_keys_put])
      (hbelow p hp).reaches⟩
  obtain ⟨top, direct, -, hdirect, hgrown⟩ := hdrawn.grown
  have hcarried : ∀ p ∈ l.aliases, ∀ known, Dict.get? (Dict.put r root.id record) p.1 = some known →
      (Tree.map known).depth + 1 < w.allowance extra slack 0 := by
    intro p hp known hknown
    rw [Dict.get?_put_of_ne _ _ (hbelow p hp).ne] at hknown
    have href := Planned.reference?_of_aliased (Dict.get?_of_mem P.nodup hp)
    exact depth_carried (by simp) (by simp [href]) hdirect hgrown hknown
  have hrecords := sidecarEntries_known P.surveyed hids
    (P := fun t => t.depth + 1 < w.allowance extra slack 0) hcarried (by simp) hentries
  obtain ⟨p, hp⟩ := List.exists_mem_of_ne_nil _ hsome
  obtain ⟨known, hknown⟩ := Dict.mem_keys_iff.mp (hids p hp).2
  have hroom := Nat.lt_of_le_of_lt (Nat.le_add_left 1 _) (hcarried p hp known hknown)
  have hone := Nat.le_of_lt hroom
  exact Tree.depth_map_le.mpr ⟨hone, List.forall_mem_cons.mpr
    ⟨hone, List.forall_mem_singleton.mpr (Tree.depth_map_lt.mpr ⟨hroom, hrecords⟩)⟩⟩

/-- Both documents take no more levels than may be written from the root on. -/
theorem documents_within (P : w.Planned h listed l) (F : w.Fits root l extra slack)
    {exportSidecar : Bool} {saved : Saved} {after : Dict (Dict Tree)}
    (hrun : w.documents l root exportSidecar [] = .ok (saved, after)) :
    saved.document.depth ≤ w.allowance extra slack 0 ∧
      ∀ sidecar, saved.sidecar = some sidecar → sidecar.depth ≤ w.allowance extra slack 0 := by
  unfold documents at hrun
  obtain ⟨record, r, hroot, hrun⟩ := run_bind_ok hrun
  rw [Writer.record] at hroot
  obtain ⟨hknown, -⟩ | ⟨-, r₁, hbuild, rfl⟩ := remembered_cases hroot
  · cases hknown
  have hstart : AtWork h root.id [] [] := ⟨by simp [Complete], by simp, by simp, by simp⟩
  have hdrawn : Drawn h l extra slack 0 root.id record [] r₁ :=
    buildRecord_within P F (Nat.add_zero _) (writes_within P F w.maxDepth rfl)
      (fun r d record hd => record_known hd w.maxDepth) (.refl root) .root hstart hbuild
  obtain ⟨hone, hrecord⟩ := Tree.depth_map_le.mp hdrawn.depth
  have hdocument : (Tree.map (w.stampRoot record)).depth ≤ w.allowance extra slack 0 :=
    Tree.depth_map_le.mpr ⟨hone, forall_mem_stampRoot hrecord hone⟩
  split at hrun
  · rename_i hwanted
    rw [Bool.and_eq_true, Bool.not_eq_true', List.isEmpty_eq_false_iff] at hwanted
    obtain ⟨sidecar, r₂, hsidecar, hrun⟩ := run_bind_ok hrun
    obtain ⟨rfl, rfl⟩ := run_pure_ok hrun
    refine ⟨hdocument, fun _ heq => ?_⟩
    obtain rfl := Option.some.inj heq
    exact sidecarDocument_within P hdrawn hwanted.2 hsidecar
  · obtain ⟨rfl, rfl⟩ := run_pure_ok hrun
    exact ⟨hdocument, by rintro _ ⟨⟩⟩

/-- A component that is the value of a field by itself is used only there, and is not listed for the
sidecar. -/
def FieldsOwn (w : Writer) (root : Component) (listed : List (String × Option String)) : Prop :=
  ∀ c, Component.Reaches w.children root c → ∀ f ∈ w.shown c, ∀ e, f.2 = .component e →
    w.occurrences root e.id = 1 ∧ ∀ entry ∈ listed, entry.1 ≠ e.id

/-- Users hold the components that are fields by themselves in place of referring to them. -/
theorem Planned.reference?_of_fieldsOwn (P : w.Planned h listed l) (hown : w.FieldsOwn root listed)
    {c : Component} (hc : Component.Reaches w.children root c) {f : String × Value}
    (hf : f ∈ w.shown c) {e : Component} (he : f.2 = .component e) : l.reference? e.id = none := by
  obtain ⟨hone, hlisted⟩ := hown c hc f hf e he
  have hkid : e ∈ w.children c := by
    obtain ⟨name, v⟩ := f
    obtain rfl : v = .component e := he
    exact mem_heldComponents hf (by simp [Value.components])
  have hbelow : h.dag.Below root.id e.id :=
    (h.reaches_root hc).trans_below ⟨e.id, (h.mem_kidsOf hc).mpr ⟨e, hkid, rfl⟩, .refl e.id⟩
  by_contra href
  rcases (P.reference_iff hbelow).mp href with hforced | hshared
  · exact hforced (forcedName?_eq_none.mpr hlisted)
  · have htwo := h.occurrences_of_shared hshared
    omega

end Writer

/-- Neither document nests deeper than a limit. -/
def Saved.Within (saved : Saved) (limit : Nat) : Prop :=
  saved.document.exceeds limit = false ∧
    ∀ sidecar, saved.sidecar = some sidecar → sidecar.exceeds limit = false

/-- What is saved within a limit may overrun it by what values at the limit take and by as many levels as
the limit has. It does not overrun it by more than the former if no record that is carried for others
stands for the value of a field. So it stays within the limit itself if no value at the limit takes a
level either. -/
theorem save_within {registry : Registry} {policy : Policy} {options : SaveOptions} {root : Component}
    {saved : Saved} {slack : Nat} (hregistry : registry.ListsFields)
    (hcoherent : Component.Coherent (options.writer registry policy).children root)
    (hproper : ∀ c, Component.Reaches (options.writer registry policy).children root c → c.Proper)
    (hkept : ∀ c, Component.Reaches (options.writer registry policy).children root c →
      ∀ f ∈ (options.writer registry policy).shown c, f.2.ComponentsKept)
    (hlevels : ∀ k v, (options.writer registry policy).StandsAt root k v → k ≤ options.maxDepth →
      k + v.levels ≤ options.maxDepth + slack)
    (hsave : save registry policy options root = .ok saved) :
    saved.Within (2 * options.maxDepth + slack) ∧
      ((options.writer registry policy).FieldsOwn root options.disaggregated →
        saved.Within (options.maxDepth + slack)) := by
  have h : (options.writer registry policy).Regular root := ⟨hcoherent, hproper⟩
  obtain ⟨⟨table, survey⟩, hsurvey, hsave⟩ := bind_ok hsave
  obtain ⟨aliases, haliases, hsave⟩ := bind_ok hsave
  obtain ⟨⟨saved', r⟩, hdocuments, hsave⟩ := bind_ok hsave
  obtain rfl := Except.ok.inj hsave
  have P := Writer.planned_of_aliases (Writer.survey_ok h (Writer.faithful_of_listsFields hregistry root)
    (.refl root) (Writer.known_empty h) hsurvey) haliases
  have within (extra : Nat) (hapart : 1 ≤ extra ∨
      (options.writer registry policy).FieldsOwn root options.disaggregated) :
      saved'.Within ((1 + extra) * options.maxDepth + slack) := by
    have F : (options.writer registry policy).Fits root ⟨survey, table, aliases⟩ extra slack :=
      ⟨hlevels, hkept, hapart.imp_right fun hown c hc f hf e he =>
        P.reference?_of_fieldsOwn hown hc hf he⟩
    obtain ⟨hdocument, hsidecar⟩ := Writer.documents_within P F hdocuments
    exact ⟨Tree.exceeds_eq_false_iff.mpr hdocument,
      fun sidecar hs => Tree.exceeds_eq_false_iff.mpr (hsidecar sidecar hs)⟩
  refine ⟨within 1 (.inl (Nat.le_refl 1)), fun hown => ?_⟩
  have hzero := within 0 (.inr hown)
  rwa [Nat.add_zero, Nat.one_mul] at hzero

/-- An agent with a tool that is written to the sidecar, within as many levels as the sidecar takes. -/
theorem save_within_alice : ∃ saved sidecar,
    save .builtin .builtin { Sample.tooled with maxDepth := 4 } Sample.alice = .ok saved ∧
      saved.sidecar = some sidecar ∧ saved.document.exceeds 4 = false ∧
      sidecar.exceeds 4 = false := by
  let options : SaveOptions := { Sample.tooled with maxDepth := 4 }
  let w : Writer := options.writer .builtin .builtin
  let found : List Component := [Sample.alice, Sample.model, Sample.search]
  have hwritten : (save .builtin .builtin options Sample.alice).toOption.any (·.sidecar.isSome) = true := by
    decide +kernel
  obtain ⟨saved, hsave, hsome⟩ := exists_of_any hwritten
  obtain ⟨sidecar, hsidecar⟩ := Option.isSome_iff_exists.mp hsome
  have hbuiltin : ∀ c ∈ found, c.kind.isBuiltin = true := by decide +kernel
  have hallowed : ∀ c ∈ found, Policy.builtin.kindAllowed c.componentType .current = true := by
    decide +kernel
  have hsame : ∀ c ∈ found, ∀ d ∈ found, c.id = d.id → c.same d = true := by decide +kernel
  have hregistry : Registry.ofPlugins [] = .ok .builtin := rfl
  have B : w.BuiltinGraph Sample.alice :=
    Writer.builtinGraph hregistry (fun c hc => hbuiltin c (Sample.mem_alice hc))
      (fun c hc => hallowed c (Sample.mem_alice hc))
      (fun c d hc hd => hsame c (Sample.mem_alice hc) d (Sample.mem_alice hd))
  have hfound {c : Component} (hc : Component.Reaches w.children Sample.alice c) : c ∈ found :=
    Sample.mem_alice (hc.mono fun _ _ => Writer.mem_children)
  have hlevels : ∀ k v, w.StandsAt Sample.alice k v → k ≤ 4 → k + v.levels ≤ 4 + 0 := by
    have hall : ∀ k ≤ 4, ∀ v ∈ w.level found Sample.alice k, k + v.levels ≤ 4 := by decide +kernel
    exact fun k v hv hk => hall k hk v (hv.mem_level fun c => hfound)
  have hwithin := save_within (fun plugin hp => absurd hp List.not_mem_nil) B.regular.coherent
    B.regular.proper
    (fun c hc f hf => (Kind.mapFree_fields (hbuiltin c (hfound hc)) f
      (Writer.mem_shown hf)).keysKept.componentsKept)
    hlevels hsave
  have hunfold : w.unfold Sample.alice = found := by
    have hchildren : w.children Sample.alice = [Sample.model, Sample.search] := rfl
    have hmodel : w.children Sample.model = [] := rfl
    have hsearch : w.children Sample.search = [] := rfl
    rw [w.unfold_eq Sample.alice, hchildren, List.flatMap_cons, List.flatMap_singleton,
      w.unfold_eq Sample.model, hmodel, w.unfold_eq Sample.search, hsearch]
    rfl
  have hone : w.occurrences Sample.alice "model" = 1 := by
    rw [Writer.occurrences, Writer.distinct, hunfold]
    decide +kernel
  have hself : ∀ c ∈ found, ∀ f ∈ w.shown c, ∀ id ∈ f.2.self, id = "model" := by decide +kernel
  have hown : w.FieldsOwn Sample.alice options.disaggregated := by
    intro c hc f hf e he
    have hid : e.id = "model" := hself c (hfound hc) f hf e.id (by simp [he, Value.self])
    rw [hid]
    exact ⟨hone, by decide⟩
  obtain ⟨hdocument, hbeside⟩ := hwithin.2 hown
  exact ⟨saved, sidecar, hsave, hsidecar, hdocument, hbeside sidecar hsidecar⟩

/-- An empty list is written past the limit. -/
theorem save_exceeds_limit : ∃ saved,
    save .builtin .builtin { SaveOptions.default with maxDepth := 1 } Sample.search = .ok saved ∧
      saved.document.exceeds 1 = true := by
  have hdeep : (save .builtin .builtin { SaveOptions.default with maxDepth := 1 }
      Sample.search).toOption.any (1 < ·.document.depth) = true := by decide +kernel
  obtain ⟨saved, hsave, hdepth⟩ := exists_of_any hdeep
  refine ⟨saved, hsave, ?_⟩
  rw [← Bool.not_eq_false, Tree.exceeds_eq_false_iff, Nat.not_le]
  exact of_decide_eq_true hdepth

/-- An agent that stands at two places is carried by the team, below levels that were not counted. -/
example : (save .builtin .builtin { SaveOptions.default with maxDepth := 4 }
    Sample.team).toOption.map (·.document.depth) = some 6 := by decide +kernel

end AgentGraph
