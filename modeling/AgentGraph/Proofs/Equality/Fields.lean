import Mathlib.Data.List.Perm.Basic
import AgentGraph.Proofs.Equality.Data
import AgentGraph.Component.Equality
/-!
# What equal components have in common

Equal components have the same identity and type, and their fields can be paired up: name by name,
value by value, component by component. Only bags of fields and mappings of values may come in
another order. `Component.height` is the same for equal components, so no component equals one
that it holds.
-/
namespace AgentGraph
open List (Forall₂)

theorem sameComponents_iff {xs ys : List Component} :
    sameComponents xs ys = true ↔ Forall₂ (fun a b => a.same b = true) xs ys := by
  induction xs generalizing ys with
  | nil => cases ys <;> simp [sameComponents]
  | cons a rest ih => cases ys <;> simp [sameComponents, ih]

theorem samePairs_iff {xs ys : List (Component × Component)} :
    samePairs xs ys = true ↔
      Forall₂ (fun p q => p.1.same q.1 = true ∧ p.2.same q.2 = true) xs ys := by
  induction xs generalizing ys with
  | nil => cases ys <;> simp [samePairs]
  | cons p rest ih =>
    obtain ⟨a, b⟩ := p
    cases ys with
    | nil => simp [samePairs]
    | cons q ys => obtain ⟨c, d⟩ := q; simp [samePairs, ih, and_assoc]

theorem sameValues_iff {xs ys : List Value} :
    sameValues xs ys = true ↔ Forall₂ (fun a b => a.same b = true) xs ys := by
  induction xs generalizing ys with
  | nil => cases ys <;> simp [sameValues]
  | cons a rest ih => cases ys <;> simp [sameValues, ih]

theorem sameFields_iff {xs ys : Dict Value} :
    sameFields xs ys = true ↔ ∀ f ∈ xs, ∃ w, ys.get? f.1 = some w ∧ f.2.same w = true := by
  induction xs with
  | nil => simp [sameFields]
  | cons f rest ih =>
    obtain ⟨key, v⟩ := f
    simp only [sameFields, Bool.and_eq_true, ih, List.forall_mem_cons]
    refine and_congr_left fun _ => ?_
    cases ys.get? key <;> simp

theorem Component.same_iff {a b : Component} :
    a.same b = true ↔ a.id = b.id ∧ a.name = b.name ∧ a.description = b.description ∧
      Tree.sameDict a.metadata b.metadata = true ∧ a.kind.same b.kind = true := by
  cases a
  simp [Component.same, Component.id, Component.name, Component.description, Component.metadata,
    Component.kind, and_assoc]

/-- Two fields of one name with equal values. -/
def EqualFields (f g : String × Value) : Prop := f.1 = g.1 ∧ f.2.same g.2 = true

@[simp] theorem Value.same_text (s t : String) :
    (Value.text s).same (.text t) = true ↔ s = t := by
  simp [Value.text, Value.same, Tree.same]

@[simp] theorem Value.same_bool (a b : Bool) : (Value.bool a).same (.bool b) = true ↔ a = b := by
  simp [Value.bool, Value.same, Tree.same]

@[simp] theorem Value.same_mapping (a b : Dict Tree) :
    (Value.mapping a).same (.mapping b) = true ↔ Tree.sameDict a b = true := by
  simp [Value.mapping, Value.same, Tree.same, Tree.sameDict]

@[simp] theorem Value.same_component (a b : Component) :
    (Value.component a).same (.component b) = a.same b := by
  simp [Value.same]

@[simp] theorem Value.same_componentList (xs ys : List Component) :
    (Value.componentList xs).same (.componentList ys) = true ↔ sameComponents xs ys = true := by
  simp [Value.componentList, Value.same, sameValues_iff, sameComponents_iff,
    List.forall₂_map_left_iff, List.forall₂_map_right_iff]

@[simp] theorem Value.same_propertyList (xs ys : List Property) :
    (Value.propertyList xs).same (.propertyList ys) = true ↔
      Property.sameList xs ys = true := by
  simp [Value.propertyList, Value.same, sameValues_iff, Property.sameList_iff,
    List.forall₂_map_left_iff, List.forall₂_map_right_iff]

theorem Value.same_pairList {xs ys : List (Component × Component)} (h : samePairs xs ys = true) :
    (Value.list (xs.map fun p => .componentList [p.1, p.2])).same
      (.list (ys.map fun p => .componentList [p.1, p.2])) = true := by
  simpa [Value.same, sameValues_iff, sameComponents_iff, List.forall₂_map_left_iff,
    List.forall₂_map_right_iff, samePairs_iff] using h

theorem optionalText_equal (field : String) (s : Option String) :
    Forall₂ EqualFields (optionalText field s) (optionalText field s) := by
  cases s <;> simp [optionalText, EqualFields]

theorem Slots.fields_equal {s t : Slots} (h : s.same t = true) :
    Forall₂ EqualFields s.fields t.fields := by
  simpa [Slots.fields, EqualFields, Slots.same] using h

/-- Whether the kind is one of the builtin catalog. -/
def Kind.isBuiltin : Kind → Bool
  | .extension .. => false
  | _ => true

theorem ModelConfig.fields_equal {a b : ModelConfig} (h : a.same b = true) :
    Forall₂ EqualFields a.fields b.fields := by
  simp only [ModelConfig.same, Bool.and_eq_true, beq_iff_eq] at h
  obtain ⟨⟨⟨⟨⟨-, hm⟩, hu⟩, hk⟩, ht⟩, hp⟩ := h
  unfold ModelConfig.fields
  rw [hm, hu, hk, ht]
  refine List.rel_append (List.rel_append (List.rel_append (List.rel_append
    (optionalText_equal _ _) ?_) (optionalText_equal _ _)) (optionalText_equal _ _)) ?_
  · simp [EqualFields]
  · cases hpa : a.parameters <;> cases hpb : b.parameters <;>
      simp_all [sameOption, EqualFields]

theorem Tool.fields_equal {a b : Tool} (h : a.same b = true) :
    Forall₂ EqualFields a.fields b.fields := by
  simp only [Tool.same, Bool.and_eq_true, beq_iff_eq] at h
  obtain ⟨⟨hsite, hslots⟩, hc⟩ := h
  unfold Tool.fields
  refine List.rel_append (List.rel_append (Slots.fields_equal hslots) ?_) ?_
  · cases ha : a.site <;> cases hb : b.site <;>
      simp_all [ToolSite.same, Endpoint.same, Endpoint.fields, EqualFields]
  · simp [EqualFields, hc]

theorem sameTexts_mapping {a b : Dict String} (h : sameTexts a b = true) :
    Tree.sameDict (Dict.mapValues .string a) (Dict.mapValues .string b) = true := by
  simp only [sameTexts, Bool.and_eq_true, beq_iff_eq, List.all_eq_true] at h
  simp only [Tree.sameDict, Bool.and_eq_true, beq_iff_eq, Tree.sameEntries_iff]
  refine ⟨by simpa [Dict.mapValues] using h.1, fun f hf => ?_⟩
  obtain ⟨p, hp, rfl⟩ := List.mem_map.mp hf
  refine ⟨.string p.2, ?_, by simp [Tree.same]⟩
  rw [Dict.get?_mapValues, h.2 p hp]
  rfl

/-- The fields of a builtin kind come in a fixed order, so they pair up as they stand. -/
theorem Kind.fields_equal {k l : Kind} (hk : k.isBuiltin = true) (h : k.same l = true) :
    Forall₂ EqualFields k.fields l.fields := by
  cases k with
  | modelConfig c =>
    cases l <;> simp only [Kind.same, Bool.false_eq_true] at h
    exact ModelConfig.fields_equal h
  | tool t =>
    cases l <;> simp only [Kind.same, Bool.false_eq_true] at h
    exact Tool.fields_equal h
  | agent c p ts hu s =>
    cases l <;> simp only [Kind.same, Bool.false_eq_true, Bool.and_eq_true, beq_iff_eq] at h
    obtain ⟨⟨⟨⟨hc, hp⟩, hts⟩, hhu⟩, hs⟩ := h
    refine List.rel_append (Slots.fields_equal hs) ?_
    simp [EqualFields, hc, hp, hts, hhu]
  | swarm f rs =>
    cases l <;> simp only [Kind.same, Bool.false_eq_true, Bool.and_eq_true] at h
    simp [Kind.fields, EqualFields, h.1, Value.same_pairList h.2]
  | managerWorkers m ws =>
    cases l <;> simp only [Kind.same, Bool.false_eq_true, Bool.and_eq_true] at h
    simp [Kind.fields, EqualFields, h.1, h.2]
  | flow n ns cs ds s =>
    cases l <;> simp only [Kind.same, Bool.false_eq_true, Bool.and_eq_true] at h
    obtain ⟨⟨⟨⟨hn, hns⟩, hcs⟩, hds⟩, hs⟩ := h
    refine List.rel_append (Slots.fields_equal hs) ?_
    simp [EqualFields, hn, hns, hcs, hds]
  | node r s =>
    cases l <;> simp only [Kind.same, Bool.false_eq_true, Bool.and_eq_true] at h
    refine List.rel_append (Slots.fields_equal h.2) ?_
    rename_i r' _
    have hr := h.1
    cases r with
    | finish b =>
      cases r' <;> simp only [NodeRole.same, Bool.false_eq_true, beq_iff_eq] at hr
      subst hr
      exact optionalText_equal _ _
    | branching m =>
      cases r' <;> simp only [NodeRole.same, Bool.false_eq_true] at hr
      simp [NodeRole.fields, EqualFields, sameTexts_mapping hr]
    | _ =>
      cases r' <;> simp only [NodeRole.same, Bool.false_eq_true, Bool.and_eq_true,
        beq_iff_eq] at hr
      all_goals simp [NodeRole.fields, EqualFields, hr]
  | controlFlowEdge f b t =>
    cases l <;> simp only [Kind.same, Bool.false_eq_true, Bool.and_eq_true, beq_iff_eq] at h
    obtain ⟨⟨hf, rfl⟩, ht⟩ := h
    refine List.rel_append (List.rel_append ?_ (optionalText_equal _ _)) ?_
    · simp [EqualFields, hf]
    · simp [EqualFields, ht]
  | dataFlowEdge s o d i =>
    cases l <;> simp only [Kind.same, Bool.false_eq_true, Bool.and_eq_true, beq_iff_eq] at h
    obtain ⟨⟨⟨hs, ho⟩, hd⟩, hi⟩ := h
    simp [Kind.fields, EqualFields, hs, ho, hd, hi]
  | extension t fs => simp [Kind.isBuiltin] at hk

theorem Kind.same_componentType {k l : Kind} (h : k.same l = true) :
    k.componentType = l.componentType := by
  cases k with
  | modelConfig a =>
    cases l <;> simp only [Kind.same, Bool.false_eq_true] at h
    simp only [ModelConfig.same, Bool.and_eq_true, beq_iff_eq] at h
    simp [componentType, h.1.1.1.1.1]
  | tool a =>
    cases l <;> simp only [Kind.same, Bool.false_eq_true] at h
    rename_i b
    simp only [Tool.same, Bool.and_eq_true] at h
    have hsite := h.1.1
    simp only [componentType, Tool.componentType]
    cases ha : a.site <;> cases hb : b.site <;> simp_all [ToolSite.same]
  | node r s =>
    cases l <;> simp only [Kind.same, Bool.false_eq_true, Bool.and_eq_true] at h
    rename_i r' _
    have hrole := h.1
    cases r <;> cases r' <;> simp_all [NodeRole.same, componentType, NodeRole.componentType]
  | extension t fs =>
    cases l <;> simp only [Kind.same, Bool.false_eq_true, Bool.and_eq_true, beq_iff_eq] at h
    simp [componentType, h.1.1]
  | _ => cases l <;> simp_all [Kind.same, componentType]

end AgentGraph
