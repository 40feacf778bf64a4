import AgentGraph.Proofs.IdGraph
import AgentGraph.Proofs.Placement.Merge
import AgentGraph.Proofs.Registry
/-!
# Looking through a graph

A survey that ends has the fields of every component that it passed and the right table of every id
that it finished. The tables of equal ids are made once, so the induction is on the room for levels
and carries what is known from one component to the next.
-/
namespace AgentGraph

/-- Every plugin beside the builtin one lists the fields of the kind as they are. -/
def Registry.ListsFields (r : Registry) : Prop :=
  ∀ plugin ∈ r.extensions, ∀ target c fields,
    plugin.write target c = .ok fields → fields = c.kind.fields

theorem Builtin.write_ok {c : Component} {fields : Dict Value} (h : Builtin.write c = .ok fields) :
    fields = c.kind.fields := by
  unfold Builtin.write at h
  split at h
  · cases h
  · exact (Except.ok.inj h).symm

namespace Plugin
variable {c : Component}

theorem writeBag_of_extension (h : c.kind.isBuiltin = false) : writeBag c = .ok c.kind.fields := by
  unfold writeBag
  cases hc : c.kind with
  | extension type fields => rfl
  | _ => simp [hc, Kind.isBuiltin] at h

theorem writeBag_of_builtin (h : c.kind.isBuiltin = true) :
    writeBag c = .error (.unknownComponentType c.componentType) := by
  unfold writeBag
  cases hc : c.kind with
  | extension type fields => simp [hc, Kind.isBuiltin] at h
  | _ => rfl

theorem write_of_extension (h : c.kind.isBuiltin = false) :
    Builtin.write c = .error (.unknownComponentType c.componentType) := by
  unfold Builtin.write Component.componentType
  cases hc : c.kind with
  | extension type fields => rfl
  | _ => simp [hc, Kind.isBuiltin] at h

theorem write_of_builtin (h : c.kind.isBuiltin = true) : Builtin.write c = .ok c.kind.fields := by
  unfold Builtin.write
  cases hc : c.kind with
  | extension type fields => simp [hc, Kind.isBuiltin] at h
  | _ => rfl

end Plugin

theorem Registry.ListsFields.owner {r : Registry} (h : r.ListsFields) {type : String}
    {owner : Owner} (ho : r.owner? type = some owner) {target : SaveTarget} {c : Component}
    {fields : Dict Value} (hw : owner.plugin.write target c = .ok fields) :
    fields = c.kind.fields := by
  rcases Registry.owner?_cases ho with hextension | ⟨-, rfl⟩
  · exact h _ hextension target c fields hw
  · exact Builtin.write_ok hw

namespace Writer
variable {w : Writer} {root c : Component} {s s' : Survey}

/-- What the plugins write of the components under a root are the fields that the policy lets
through. -/
def Faithful (w : Writer) (root : Component) : Prop :=
  ∀ c fields, Component.Reaches w.children root c → w.visibleFields c = .ok fields →
    fields = w.shown c

theorem visibleFields_ok {owner : Owner} (ho : w.registry.owner? c.componentType = some owner)
    (hw : ∀ fields, owner.plugin.write w.target c = .ok fields → fields = c.kind.fields)
    {fields : Dict Value} (h : w.visibleFields c = .ok fields) : fields = w.shown c := by
  unfold visibleFields at h
  unfold shown
  simp only [ho] at h
  split at h
  · obtain ⟨fs, hfs, h⟩ := bind_ok h
    rw [if_pos ‹_›, ← hw fs hfs]
    exact (Except.ok.inj h).symm
  · rw [if_neg ‹_›]
    exact (Except.ok.inj h).symm

theorem faithful_of_listsFields (hr : w.registry.ListsFields) (root : Component) :
    w.Faithful root := by
  intro c fields _ h
  cases ho : w.registry.owner? c.componentType with
  | none =>
    unfold visibleFields at h
    simp only [ho] at h
    cases h
  | some owner => exact visibleFields_ok ho (fun _ hfields => hr.owner ho hfields) h

/-- What a survey knows is so. -/
structure Known (h : w.Regular root) (s : Survey) : Prop where
  found : ∀ x c fields, s.found.get? x = some (c, fields) →
    c.id = x ∧ Component.Reaches w.children root c ∧ fields = w.shown c
  tables : ∀ x table, s.tables.get? x = some table →
    PlacementTable.Fits h.dag x table ∧ ∀ y, h.dag.Reaches x y → y ∈ s.found.keys

theorem known_empty (h : w.Regular root) : w.Known h .empty := by
  refine ⟨fun x c fields hx => ?_, fun x table hx => ?_⟩ <;> simp [Survey.empty] at hx

/-- Every id found before is still found. -/
def Grows (s s' : Survey) : Prop := ∀ x ∈ s.found.keys, x ∈ s'.found.keys

/-- What a survey of one component gives. -/
structure Surveyed (h : w.Regular root) (id : String) (s : Survey) (table : PlacementTable)
    (s' : Survey) : Prop where
  known : w.Known h s'
  grows : Grows s s'
  fits : PlacementTable.Fits h.dag id table
  covers : ∀ y, h.dag.Reaches id y → y ∈ s'.found.keys
  stored : s'.tables.get? id = some table

/-- A component that passes is the object, or equals the component, that was found under its id. -/
theorem checkIdentity_ok {u : Unit} (h : checkIdentity c s = .ok (u, s')) :
    s' = s ∧ ∀ seen, s.component? c.id = some seen →
      seen.isSameObject c = true ∨ seen.same c = true := by
  unfold checkIdentity at h
  have h₁ := run_get_bind_ok h
  cases hseen : s.component? c.id with
  | none =>
    rw [hseen] at h₁
    exact ⟨(run_pure_ok h₁).2, by simp⟩
  | some seen =>
    simp only [hseen] at h₁
    split at h₁
    · exact (run_throw_ok h₁).elim
    · rename_i hpass
      refine ⟨(run_pure_ok h₁).2, fun _ hd => Option.some.inj hd ▸ ?_⟩
      simpa [Classical.or_iff_not_imp_left] using hpass

/-- The fields of an id are those noted before, or they are noted now. -/
theorem noteFields_cases {fields : Dict Value} (h : w.noteFields c s = .ok (fields, s')) :
    (s.fields? c.id = some fields ∧ s' = s) ∨
    (s.fields? c.id = none ∧ w.visibleFields c = .ok fields ∧
      s' = { s with found := s.found.put c.id (c, fields) }) := by
  unfold noteFields at h
  have h₁ := run_get_bind_ok h
  cases hf : s.fields? c.id with
  | some found =>
    rw [hf] at h₁
    obtain ⟨rfl, rfl⟩ := run_pure_ok h₁
    exact .inl ⟨rfl, rfl⟩
  | none =>
    rw [hf] at h₁
    obtain ⟨shown, hv, h₂⟩ := run_lift_bind_ok h₁
    have h₃ := run_modify_bind_ok h₂
    obtain ⟨rfl, rfl⟩ := run_pure_ok h₃
    exact .inr ⟨rfl, hv, rfl⟩

/-- A survey gives the table that it has for the id, or makes and keeps one. -/
theorem survey_cases {room : Nat} {table : PlacementTable}
    (h : w.survey (room + 1) c s = .ok (table, s')) :
    checkIdentity c s = .ok ((), s) ∧
    ((s.tables.get? c.id = some table ∧ s' = s) ∨
      (s.tables.get? c.id = none ∧ ∃ fields t u, w.noteFields c s = .ok (fields, t) ∧
        mergeChildren c.id (w.survey room) (firstOfEachId [] (heldComponents fields))
          (PlacementTable.ofChildren c.id (heldComponents fields)) t = .ok (table, u) ∧
        s' = { u with tables := u.tables.put c.id table })) := by
  unfold survey at h
  obtain ⟨_, t, hid, h₁⟩ := run_bind_ok h
  obtain rfl := (checkIdentity_ok hid).1
  refine ⟨hid, ?_⟩
  have h₂ := run_get_bind_ok h₁
  cases hk : t.tables.get? c.id with
  | some known =>
    rw [hk] at h₂
    obtain ⟨rfl, rfl⟩ := run_pure_ok h₂
    exact .inl ⟨rfl, rfl⟩
  | none =>
    rw [hk] at h₂
    obtain ⟨fields, u, hf, h₃⟩ := run_bind_ok h₂
    obtain ⟨merged, v, hm, h₄⟩ := run_bind_ok h₃
    have h₅ := run_modify_bind_ok h₄
    obtain ⟨rfl, rfl⟩ := run_pure_ok h₅
    exact .inr ⟨rfl, fields, u, v, hf, hm, rfl⟩

theorem noteFields_ok (h : w.Regular root) (hr : w.Faithful root)
    (hc : Component.Reaches w.children root c) (hs : w.Known h s) {fields : Dict Value}
    (hrun : w.noteFields c s = .ok (fields, s')) :
    w.Known h s' ∧ Grows s s' ∧ c.id ∈ s'.found.keys ∧
      ∃ d, d.id = c.id ∧ Component.Reaches w.children root d ∧ fields = w.shown d := by
  rcases noteFields_cases hrun with ⟨hf, rfl⟩ | ⟨-, hv, rfl⟩
  · obtain ⟨⟨d, fs⟩, hd, rfl⟩ := Option.map_eq_some_iff.mp hf
    exact ⟨hs, fun _ hx => hx, Dict.mem_keys_iff.mpr ⟨_, hd⟩, d, hs.found _ _ _ hd⟩
  · have hshown := hr c _ hc hv
    have hgrows : Grows s { s with found := s.found.put c.id (c, fields) } :=
      fun x hx => Dict.mem_keys_put.mpr (.inr hx)
    refine ⟨⟨fun x d fs hx => ?_, fun x table hx => ?_⟩, hgrows,
      Dict.mem_keys_put.mpr (.inl rfl), c, rfl, hc, hshown⟩
    · rw [Dict.get?_put] at hx
      split at hx
      · cases hx
        exact ⟨‹_›, hc, hshown⟩
      · exact hs.found x d fs hx
    · obtain ⟨hfits, hcovers⟩ := hs.tables x table hx
      exact ⟨hfits, fun y hy => hgrows y (hcovers y hy)⟩

theorem mergeChildren_ok (h : w.Regular root) {here : String}
    {tableOf : Component → SurveyM PlacementTable} {cs : List Component}
    (htableOf : ∀ c ∈ cs, ∀ s table s', w.Known h s → tableOf c s = .ok (table, s') →
      w.Surveyed h c.id s table s')
    {start table : PlacementTable} (hs : w.Known h s)
    (hrun : mergeChildren here tableOf cs start s = .ok (table, s')) :
    w.Known h s' ∧ Grows s s' ∧ (∀ c ∈ cs, ∀ y, h.dag.Reaches c.id y → y ∈ s'.found.keys) ∧
      ∃ ts : List PlacementTable, table = ts.foldl (PlacementTable.mergeChild here) start ∧
        (∀ t ∈ ts, ∃ c ∈ cs, PlacementTable.Fits h.dag c.id t) ∧
        ∀ c ∈ cs, ∃ t ∈ ts, PlacementTable.Fits h.dag c.id t := by
  induction cs generalizing start s with
  | nil =>
    obtain ⟨rfl, rfl⟩ := run_pure_ok hrun
    exact ⟨hs, fun _ hx => hx, by simp, [], rfl, by simp, by simp⟩
  | cons c rest ih =>
    rw [mergeChildren] at hrun
    obtain ⟨below, t, hc, hrest⟩ := run_bind_ok hrun
    have hfirst := htableOf c List.mem_cons_self _ _ _ hs hc
    obtain ⟨hknown, hgrows, hcovers, ts, htable, hts, hcs⟩ :=
      ih (fun d hd => htableOf d (List.mem_cons_of_mem _ hd)) hfirst.known hrest
    refine ⟨hknown, fun x hx => hgrows x (hfirst.grows x hx), ?_, below :: ts, htable, ?_, ?_⟩
    · refine List.forall_mem_cons.mpr ⟨fun y hy => hgrows y (hfirst.covers y hy), hcovers⟩
    · refine List.forall_mem_cons.mpr ⟨⟨c, List.mem_cons_self, hfirst.fits⟩, fun t ht => ?_⟩
      obtain ⟨d, hd, hfits⟩ := hts t ht
      exact ⟨d, List.mem_cons_of_mem _ hd, hfits⟩
    · refine List.forall_mem_cons.mpr ⟨⟨below, List.mem_cons_self, hfirst.fits⟩, fun d hd => ?_⟩
      obtain ⟨t, ht, hfits⟩ := hcs d hd
      exact ⟨t, List.mem_cons_of_mem _ ht, hfits⟩

/-- A survey that ends leaves the right table, whatever it knew before. -/
theorem survey_ok (h : w.Regular root) (hr : w.Faithful root) {room : Nat}
    (hc : Component.Reaches w.children root c) (hs : w.Known h s) {table : PlacementTable}
    (hrun : w.survey room c s = .ok (table, s')) : w.Surveyed h c.id s table s' := by
  induction room generalizing c s table s' with
  | zero => exact (run_throw_ok hrun).elim
  | succ room ih =>
    obtain ⟨-, ⟨hk, rfl⟩ | ⟨-, fields, u, v, hf, hm, rfl⟩⟩ := survey_cases hrun
    · obtain ⟨hfits, hcovers⟩ := hs.tables _ _ hk
      exact ⟨hs, fun _ hx => hx, hfits, hcovers, hk⟩
    · obtain ⟨hu, hgu, hcu, d, hid, hd, rfl⟩ := noteFields_ok h hr hc hs hf
      have hfirst : ∀ e ∈ firstOfEachId [] (w.children d), e ∈ w.children d :=
        fun e he => (mem_firstOfEachId he).1
      have hkid : ∀ y ∈ h.dag.kids c.id, ∃ e ∈ firstOfEachId [] (w.children d), e.id = y := by
        intro y hy
        obtain ⟨e, he, rfl⟩ := (h.mem_kidsOf hd).mp (hid ▸ hy)
        exact exists_firstOfEachId he List.not_mem_nil
      obtain ⟨hv, hgv, hcv, ts, rfl, hts, hcs⟩ := mergeChildren_ok h
        (fun e he s table s' hs hrun => ih (hd.kid (hfirst e he)) hs hrun) hu hm
      have hfits : PlacementTable.Fits h.dag c.id (ts.foldl (PlacementTable.mergeChild c.id)
          (PlacementTable.ofChildren c.id (w.children d))) := by
        refine PlacementTable.fits_merge (hid ▸ (h.kidsOf_perm hd).symm) (fun t ht => ?_)
          fun a ha => ?_
        · obtain ⟨e, he, hf⟩ := hts t ht
          exact ⟨e.id, hid ▸ (h.mem_kidsOf hd).mpr ⟨e, hfirst e he, rfl⟩, hf⟩
        · obtain ⟨e, he, rfl⟩ := hkid a ha
          exact hcs e he
      have hcovers : ∀ y, h.dag.Reaches c.id y → y ∈ v.found.keys := by
        intro y hy
        rcases Dag.reaches_iff.mp hy with rfl | ⟨a, ha, hay⟩
        · exact hgv _ hcu
        · obtain ⟨e, he, rfl⟩ := hkid a ha
          exact hcv e he y hay
      refine ⟨⟨hv.found, fun x table hx => ?_⟩, fun x hx => hgv x (hgu x hx), hfits, hcovers,
        Dict.get?_put_self _ _ _⟩
      rw [Dict.get?_put] at hx
      split at hx
      · subst x
        obtain rfl := Option.some.inj hx
        exact ⟨hfits, hcovers⟩
      · exact hv.tables x table hx

end Writer
end AgentGraph
