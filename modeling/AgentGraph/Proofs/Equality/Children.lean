import AgentGraph.Proofs.Equality.Fields
/-!
# The components of equal components

Where no mapping repeats a key, the positions at which equal values hold components pair up, and the
components at paired positions are equal. So equal components have the same weight, and no component
equals one that it holds. Even with repeated keys, each component that one value holds has an equal one
in the other.
-/
namespace AgentGraph
open List (Forall₂)

theorem exists_left {α β : Type} {S : α → β → Prop} {xs : List α} {ys : List β} {y : β}
    (h : Forall₂ S xs ys) (hy : y ∈ ys) : ∃ x ∈ xs, S x y := by
  induction h with
  | nil => simp at hy
  | cons hxy _ ih =>
    rcases List.mem_cons.mp hy with rfl | hy
    · exact ⟨_, List.mem_cons_self, hxy⟩
    · obtain ⟨x, hx, hxy⟩ := ih hy
      exact ⟨x, List.mem_cons_of_mem _ hx, hxy⟩

mutual
/-- No mapping of a value repeats a key; the components that the value holds are not looked into. -/
def Value.Proper : Value → Prop
  | .list items => properItems items
  | .map entries => (Dict.keys entries).Nodup ∧ properEntries entries
  | _ => True
/-- The values of a list are proper. -/
def properItems : List Value → Prop
  | [] => True
  | v :: rest => v.Proper ∧ properItems rest
/-- The values of a mapping are proper. -/
def properEntries : List (String × Value) → Prop
  | [] => True
  | (_, v) :: rest => v.Proper ∧ properEntries rest
end

theorem properEntries_iff {fields : Dict Value} :
    properEntries fields ↔ ∀ f ∈ fields, f.2.Proper := by
  induction fields with
  | nil => simp [properEntries]
  | cons f rest ih => simp [properEntries, ih]

namespace Value

theorem componentsOfList_eq (items : List Value) :
    componentsOfList items = items.flatMap components := by
  induction items with
  | nil => simp [componentsOfList]
  | cons v rest ih => simp [componentsOfList, ih]

theorem componentsOfEntries_eq (fields : Dict Value) :
    componentsOfEntries fields = fields.flatMap fun f => f.2.components := by
  induction fields with
  | nil => simp [componentsOfEntries]
  | cons f rest ih => simp [componentsOfEntries, ih]

theorem componentsOfEntries_perm {xs ys : Dict Value} (h : xs.Perm ys) :
    (componentsOfEntries xs).Perm (componentsOfEntries ys) := by
  rw [componentsOfEntries_eq, componentsOfEntries_eq]
  exact h.flatMap_right _

mutual
/-- The components of equal values pair up, in some order of the second. -/
theorem components_paired {v w : Value} (h : v.same w = true) (hv : v.Proper) :
    ∃ l, Forall₂ (fun c d => c.same d = true) v.components l ∧ l.Perm w.components := by
  match v with
  | .data _ =>
    cases w <;> simp only [same, Bool.false_eq_true] at h
    exact ⟨[], by simp [components], by simp [components]⟩
  | .property _ =>
    cases w <;> simp only [same, Bool.false_eq_true] at h
    exact ⟨[], by simp [components], by simp [components]⟩
  | .component x =>
    cases w <;> simp only [same, Bool.false_eq_true] at h
    exact ⟨_, by simpa [components] using h, .refl _⟩
  | .list xs =>
    cases w <;> simp only [same, Bool.false_eq_true] at h
    exact componentsOfList_paired h hv
  | .map xs =>
    cases w <;> simp only [same, Bool.false_eq_true, Bool.and_eq_true, beq_iff_eq] at h
    obtain ⟨zs, hperm, hzs⟩ := Dict.paired (R := fun v w => v.same w = true) hv.1 h.1
      (sameFields_iff.mp h.2)
    obtain ⟨l, hl, hlz⟩ := componentsOfEntries_paired hzs hv.2
    exact ⟨l, hl, hlz.trans (componentsOfEntries_perm hperm)⟩
theorem componentsOfList_paired {xs ys : List Value} (h : sameValues xs ys = true)
    (hx : properItems xs) :
    ∃ l, Forall₂ (fun c d => c.same d = true) (componentsOfList xs) l ∧
      l.Perm (componentsOfList ys) := by
  match xs with
  | [] =>
    cases ys <;> simp only [sameValues, Bool.false_eq_true] at h
    exact ⟨[], by simp [componentsOfList], by simp [componentsOfList]⟩
  | x :: xs =>
    cases ys <;> simp only [sameValues, Bool.false_eq_true, Bool.and_eq_true] at h
    obtain ⟨l, hl, hlp⟩ := components_paired h.1 hx.1
    obtain ⟨m, hm, hmp⟩ := componentsOfList_paired h.2 hx.2
    exact ⟨l ++ m, List.rel_append hl hm, hlp.append hmp⟩
theorem componentsOfEntries_paired {xs : List (String × Value)} {ys : Dict Value}
    (h : Forall₂ EqualFields xs ys) (hx : properEntries xs) :
    ∃ l, Forall₂ (fun c d => c.same d = true) (componentsOfEntries xs) l ∧
      l.Perm (componentsOfEntries ys) := by
  match xs, ys, h with
  | [], _, .nil => exact ⟨[], by simp [componentsOfEntries], by simp [componentsOfEntries]⟩
  | (key, x) :: xs, _ :: ys, .cons hf h =>
    obtain ⟨l, hl, hlp⟩ := components_paired hf.2 hx.1
    obtain ⟨m, hm, hmp⟩ := componentsOfEntries_paired h hx.2
    exact ⟨l ++ m, List.rel_append hl hm, hlp.append hmp⟩
end

end Value

theorem mem_heldComponents {fields : Dict Value} {f : String × Value} {c : Component}
    (hf : f ∈ fields) (hc : c ∈ f.2.components) : c ∈ heldComponents fields := by
  rw [heldComponents, Value.componentsOfEntries_eq]
  exact List.mem_flatMap.mpr ⟨f, hf, hc⟩

theorem heldComponents_mono {fs gs : Dict Value} {c : Component} (h : ∀ f ∈ fs, f ∈ gs)
    (hc : c ∈ heldComponents fs) : c ∈ heldComponents gs := by
  rw [heldComponents, Value.componentsOfEntries_eq] at hc
  obtain ⟨f, hf, hcf⟩ := List.mem_flatMap.mp hc
  exact mem_heldComponents (h f hf) hcf

theorem forall_held_merge {fs gs : Dict Value} {V : Component → Prop}
    (hfs : ∀ c ∈ heldComponents fs, V c) (hgs : ∀ c ∈ heldComponents gs, V c) :
    ∀ c ∈ heldComponents (Dict.merge fs gs), V c := by
  have hall : ∀ f ∈ Dict.merge fs gs, ∀ c ∈ f.2.components, V c :=
    Dict.forall_mem_merge (fun f hf c hc => hfs c (mem_heldComponents hf hc))
      fun f hf c hc => hgs c (mem_heldComponents hf hc)
  intro c hc
  rw [heldComponents, Value.componentsOfEntries_eq] at hc
  obtain ⟨f, hf, hc⟩ := List.mem_flatMap.mp hc
  exact hall f hf c hc

/-- No two fields of the component have one name, and no mapping among its values repeats a key. -/
def Component.Proper (c : Component) : Prop :=
  (Dict.keys c.kind.fields).Nodup ∧ properEntries c.kind.fields

theorem Kind.fields_paired {k l : Kind} (h : k.same l = true) (hk : (Dict.keys k.fields).Nodup) :
    ∃ fields, fields.Perm l.fields ∧ Forall₂ EqualFields k.fields fields := by
  by_cases hb : k.isBuiltin = true
  · exact ⟨_, .refl _, Kind.fields_equal hb h⟩
  · cases k with
    | extension t fs =>
      cases l <;> simp only [Kind.same, Bool.false_eq_true, Bool.and_eq_true, beq_iff_eq] at h
      rename_i fs'
      have hnodup : (Dict.keys fs).Nodup := hk
      exact Dict.paired (R := fun v w => v.same w = true) hnodup h.1.2 (sameFields_iff.mp h.2)
    | _ => exact absurd rfl hb

/-- Equal components hold equal components in the fields that pass a test of their names. -/
theorem Component.held_paired {c d : Component} (h : c.same d = true) (hc : c.Proper)
    (test : String → Bool) :
    ∃ l, Forall₂ (fun a b => a.same b = true)
        (heldComponents (c.kind.fields.filter fun f => test f.1)) l ∧
      l.Perm (heldComponents (d.kind.fields.filter fun f => test f.1)) := by
  obtain ⟨fields, hperm, hf⟩ := Kind.fields_paired (Component.same_iff.mp h).2.2.2.2 hc.1
  have hproper : properEntries (c.kind.fields.filter fun f => test f.1) :=
    properEntries_iff.mpr fun f hf => properEntries_iff.mp hc.2 f (List.mem_of_mem_filter hf)
  have hpaired : Forall₂ EqualFields (c.kind.fields.filter fun f => test f.1)
      (fields.filter fun f => test f.1) :=
    Dict.forall₂_filter (R := fun v u => Value.same v u = true) hf test
  obtain ⟨l, hl, hp⟩ := Value.componentsOfEntries_paired hpaired hproper
  exact ⟨l, hl, hp.trans (Value.componentsOfEntries_perm (hperm.filter _))⟩

theorem Component.same_id {c d : Component} (h : c.same d = true) : c.id = d.id :=
  (Component.same_iff.mp h).1

theorem Component.same_type {c d : Component} (h : c.same d = true) :
    c.componentType = d.componentType :=
  Kind.same_componentType (Component.same_iff.mp h).2.2.2.2

namespace Value
variable {c : Component}

mutual
/-- Each component that a value holds has an equal one in every equal value. -/
theorem components_matched {v w : Value} (h : v.same w = true) (hc : c ∈ v.components) :
    ∃ d ∈ w.components, c.same d = true := by
  match v with
  | .data _ => simp [components] at hc
  | .property _ => simp [components] at hc
  | .component x =>
    cases w <;> simp only [same, Bool.false_eq_true] at h
    simpa [components, List.mem_singleton.mp hc] using h
  | .list xs =>
    cases w <;> simp only [same, Bool.false_eq_true] at h
    exact componentsOfList_matched h hc
  | .map xs =>
    cases w <;> simp only [same, Bool.false_eq_true, Bool.and_eq_true] at h
    exact componentsOfEntries_matched (sameFields_iff.mp h.2) hc
theorem componentsOfList_matched {xs ys : List Value} (h : sameValues xs ys = true)
    (hc : c ∈ componentsOfList xs) : ∃ d ∈ componentsOfList ys, c.same d = true := by
  match xs with
  | [] => simp [componentsOfList] at hc
  | x :: xs =>
    cases ys <;> simp only [sameValues, Bool.false_eq_true, Bool.and_eq_true] at h
    rcases List.mem_append.mp hc with hc | hc
    · obtain ⟨d, hd, hcd⟩ := components_matched h.1 hc
      exact ⟨d, List.mem_append_left _ hd, hcd⟩
    · obtain ⟨d, hd, hcd⟩ := componentsOfList_matched h.2 hc
      exact ⟨d, List.mem_append_right _ hd, hcd⟩
theorem componentsOfEntries_matched {xs : List (String × Value)} {ys : Dict Value}
    (h : ∀ f ∈ xs, ∃ w, ys.get? f.1 = some w ∧ f.2.same w = true)
    (hc : c ∈ componentsOfEntries xs) : ∃ d ∈ componentsOfEntries ys, c.same d = true := by
  match xs with
  | [] => simp [componentsOfEntries] at hc
  | (key, x) :: xs =>
    obtain ⟨⟨w, hw, hxw⟩, hrest⟩ := List.forall_mem_cons.mp h
    rcases List.mem_append.mp hc with hc | hc
    · obtain ⟨d, hd, hcd⟩ := components_matched hxw hc
      exact ⟨d, mem_heldComponents (Dict.mem_of_get? hw) hd, hcd⟩
    · exact componentsOfEntries_matched hrest hc
end

end Value

/-- Each field of a kind has an equal one in every equal kind. -/
theorem Kind.fields_matched {k l : Kind} (h : k.same l = true) :
    ∀ f ∈ k.fields, ∃ g ∈ l.fields, f.2.same g.2 = true := by
  intro f hf
  by_cases hb : k.isBuiltin = true
  · obtain ⟨g, hg, hfg⟩ := exists_left (Kind.fields_equal hb h).flip hf
    exact ⟨g, hg, hfg.2⟩
  · cases k with
    | extension t fs =>
      cases l <;> simp only [Kind.same, Bool.false_eq_true, Bool.and_eq_true] at h
      obtain ⟨w, hw, hfw⟩ := sameFields_iff.mp h.2 f hf
      exact ⟨_, Dict.mem_of_get? hw, hfw⟩
    | _ => exact absurd rfl hb

/-- Each component that a component holds has an equal one in every equal component. -/
theorem Component.children_matched {c d e : Component} (h : c.same d = true) (he : e ∈ c.children) :
    ∃ e' ∈ d.children, e.same e' = true := by
  rw [children, heldComponents, Value.componentsOfEntries_eq] at he
  obtain ⟨f, hf, hef⟩ := List.mem_flatMap.mp he
  obtain ⟨g, hg, hfg⟩ := Kind.fields_matched (Component.same_iff.mp h).2.2.2.2 f hf
  obtain ⟨e', he', hee'⟩ := Value.components_matched hfg hef
  exact ⟨e', mem_heldComponents hg he', hee'⟩

end AgentGraph
