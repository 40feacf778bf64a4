import Mathlib.Data.List.Forall2
import AgentGraph.Proofs.Dict
import AgentGraph.Property
/-!
# Equality of data is transitive

Trees and schemas compare without regard to the order of keys. The comparison is one-sided key by
key, and still transitive.
-/
namespace AgentGraph
open List (Forall₂)

theorem Double.same_trans {a b c : UInt64} (h : Double.same a b = true)
    (k : Double.same b c = true) : Double.same a c = true := by
  simp only [Double.same, Bool.or_eq_true, Bool.and_eq_true, beq_iff_eq] at *
  rcases h with rfl | ⟨ha, hb⟩
  · exact k
  · rcases k with rfl | ⟨-, hc⟩
    · exact .inr ⟨ha, hb⟩
    · exact .inr ⟨ha, hc⟩

theorem Number.same_trans {a b c : Number} (h : a.same b = true) (k : b.same c = true) :
    a.same c = true := by
  cases a <;> cases b <;> simp only [Number.same, Bool.false_eq_true] at h <;>
    cases c <;> simp only [Number.same, Bool.false_eq_true, beq_iff_eq] at h k ⊢
  · exact h.trans k
  · exact Double.same_trans h k

namespace Tree

theorem sameEntries_iff {xs ys : Dict Tree} :
    sameEntries xs ys = true ↔ ∀ f ∈ xs, ∃ w, ys.get? f.1 = some w ∧ f.2.same w = true := by
  induction xs with
  | nil => simp [sameEntries]
  | cons f rest ih =>
    obtain ⟨key, v⟩ := f
    simp only [sameEntries, Bool.and_eq_true, ih, List.forall_mem_cons]
    refine and_congr_left fun _ => ?_
    cases ys.get? key <;> simp

mutual
theorem same_trans {a b c : Tree} (h : a.same b = true) (k : b.same c = true) :
    a.same c = true := by
  match a with
  | .null => cases b <;> cases c <;> simp_all [same]
  | .bool x => cases b <;> cases c <;> simp_all [same]
  | .number x =>
    cases b <;> simp only [same, Bool.false_eq_true] at h
    cases c <;> simp only [same, Bool.false_eq_true] at k ⊢
    exact Number.same_trans h k
  | .string s => cases b <;> cases c <;> simp_all [same]
  | .list xs =>
    cases b <;> simp only [same, Bool.false_eq_true] at h
    cases c <;> simp only [same, Bool.false_eq_true] at k ⊢
    exact sameList_trans h k
  | .map xs =>
    cases b <;> simp only [same, Bool.false_eq_true, Bool.and_eq_true, beq_iff_eq] at h
    cases c <;> simp only [same, Bool.false_eq_true, Bool.and_eq_true, beq_iff_eq] at k ⊢
    exact ⟨h.1.trans k.1, sameEntries_trans h.2 k.2⟩
theorem sameList_trans {xs ys zs : List Tree} (h : sameList xs ys = true)
    (k : sameList ys zs = true) : sameList xs zs = true := by
  match xs with
  | [] => cases ys <;> cases zs <;> simp_all [sameList]
  | x :: xs =>
    cases ys <;> simp only [sameList, Bool.false_eq_true, Bool.and_eq_true] at h
    cases zs <;> simp only [sameList, Bool.false_eq_true, Bool.and_eq_true] at k ⊢
    exact ⟨same_trans h.1 k.1, sameList_trans h.2 k.2⟩
theorem sameEntries_trans {xs ys zs : List (String × Tree)} (h : sameEntries xs ys = true)
    (k : sameEntries ys zs = true) : sameEntries xs zs = true := by
  match xs with
  | [] => simp [sameEntries]
  | (key, x) :: xs =>
    obtain ⟨⟨y, hy, hxy⟩, h⟩ := List.forall_mem_cons.mp (sameEntries_iff.mp h)
    obtain ⟨z, hz, hyz⟩ := sameEntries_iff.mp k _ (Dict.mem_of_get? hy)
    simp only [sameEntries, hz, Bool.and_eq_true]
    exact ⟨same_trans hxy hyz, sameEntries_trans (sameEntries_iff.mpr h) k⟩
end

theorem sameDict_trans {xs ys zs : Dict Tree} (h : sameDict xs ys = true)
    (k : sameDict ys zs = true) : sameDict xs zs = true := by
  simp only [sameDict, Bool.and_eq_true, beq_iff_eq] at *
  exact ⟨h.1.trans k.1, sameEntries_trans h.2 k.2⟩

end Tree

namespace Schema

theorem sameProperties_iff {xs ys : Dict Schema} :
    sameProperties xs ys = true ↔ ∀ f ∈ xs, ∃ w, ys.get? f.1 = some w ∧ f.2.same w = true := by
  induction xs with
  | nil => simp [sameProperties]
  | cons f rest ih =>
    obtain ⟨key, v⟩ := f
    simp only [sameProperties, Bool.and_eq_true, ih, List.forall_mem_cons]
    refine and_congr_left fun _ => ?_
    cases ys.get? key <;> simp

/-- Equality of optional defaults. -/
theorem same_iff {a b : Schema} :
    a.same b = true ↔ a.title = b.title ∧ a.description = b.description ∧
      (∀ t, a.fallback = some t → ∃ u, b.fallback = some u ∧ t.same u = true) ∧
      (a.fallback = none → b.fallback = none) ∧
      sameTypePart a.type b.type = true ∧ Tree.sameDict a.extra b.extra = true := by
  obtain ⟨t, d, f, ty, e⟩ := a
  obtain ⟨t', d', f', ty', e'⟩ := b
  unfold same
  cases f <;> cases f' <;> simp [title, description, fallback, type, extra, and_assoc]

mutual
theorem same_trans {a b c : Schema} (h : a.same b = true) (k : b.same c = true) :
    a.same c = true := by
  match a with
  | .mk t d f ty e =>
    obtain ⟨ht, hd, hf, hn, hty, he⟩ := same_iff.mp h
    obtain ⟨kt, kd, kf, kn, kty, ke⟩ := same_iff.mp k
    refine same_iff.mpr ⟨ht.trans kt, hd.trans kd, fun u hu => ?_, fun hu => kn (hn hu),
      sameTypePart_trans hty kty, Tree.sameDict_trans he ke⟩
    obtain ⟨v, hv, huv⟩ := hf u hu
    obtain ⟨w, hw, hvw⟩ := kf v hv
    exact ⟨w, hw, Tree.same_trans huv hvw⟩
termination_by structural a
theorem sameTypePart_trans {a b c : SchemaType} (h : sameTypePart a b = true)
    (k : sameTypePart b c = true) : sameTypePart a c = true := by
  match a with
  | .any => cases b <;> cases c <;> simp_all [sameTypePart]
  | .null => cases b <;> cases c <;> simp_all [sameTypePart]
  | .boolean => cases b <;> cases c <;> simp_all [sameTypePart]
  | .integer => cases b <;> cases c <;> simp_all [sameTypePart]
  | .number => cases b <;> cases c <;> simp_all [sameTypePart]
  | .string => cases b <;> cases c <;> simp_all [sameTypePart]
  | .array none =>
    cases b <;> try simp only [sameTypePart, Bool.false_eq_true] at h
    rename_i y
    cases y <;> simp only [sameTypePart, Bool.false_eq_true] at h
    exact k
  | .array (some x) =>
    cases b <;> try simp only [sameTypePart, Bool.false_eq_true] at h
    rename_i y
    cases y <;> simp only [sameTypePart, Bool.false_eq_true] at h
    cases c <;> try simp only [sameTypePart, Bool.false_eq_true] at k
    rename_i z
    cases z <;> simp only [sameTypePart, Bool.false_eq_true] at k ⊢
    exact same_trans h k
  | .object ps p =>
    cases b <;> simp only [sameTypePart, Bool.false_eq_true, Bool.and_eq_true, beq_iff_eq] at h
    cases c <;> simp only [sameTypePart, Bool.false_eq_true, Bool.and_eq_true, beq_iff_eq] at k ⊢
    exact ⟨⟨h.1.1.trans k.1.1, sameProperties_trans h.1.2 k.1.2⟩, sameAdditional_trans h.2 k.2⟩
  | .anyOf xs =>
    cases b <;> simp only [sameTypePart, Bool.false_eq_true] at h
    cases c <;> simp only [sameTypePart, Bool.false_eq_true] at k ⊢
    exact sameList_trans h k
termination_by structural a
theorem sameAdditional_trans {a b c : Additional} (h : sameAdditional a b = true)
    (k : sameAdditional b c = true) : sameAdditional a c = true := by
  match a with
  | .unspecified => cases b <;> cases c <;> simp_all [sameAdditional]
  | .allowed x => cases b <;> cases c <;> simp_all [sameAdditional]
  | .following x =>
    cases b <;> simp only [sameAdditional, Bool.false_eq_true] at h
    cases c <;> simp only [sameAdditional, Bool.false_eq_true] at k ⊢
    exact same_trans h k
termination_by structural a
theorem sameList_trans {xs ys zs : List Schema} (h : sameList xs ys = true)
    (k : sameList ys zs = true) : sameList xs zs = true := by
  match xs with
  | [] => cases ys <;> cases zs <;> simp_all [sameList]
  | x :: xs =>
    cases ys <;> simp only [sameList, Bool.false_eq_true, Bool.and_eq_true] at h
    cases zs <;> simp only [sameList, Bool.false_eq_true, Bool.and_eq_true] at k ⊢
    exact ⟨same_trans h.1 k.1, sameList_trans h.2 k.2⟩
termination_by structural xs
theorem sameProperties_trans {xs ys zs : List (String × Schema)}
    (h : sameProperties xs ys = true) (k : sameProperties ys zs = true) :
    sameProperties xs zs = true := by
  match xs with
  | [] => simp [sameProperties]
  | (key, x) :: xs =>
    obtain ⟨⟨y, hy, hxy⟩, h⟩ := List.forall_mem_cons.mp (sameProperties_iff.mp h)
    obtain ⟨z, hz, hyz⟩ := sameProperties_iff.mp k _ (Dict.mem_of_get? hy)
    simp only [sameProperties, hz, Bool.and_eq_true]
    exact ⟨same_trans hxy hyz, sameProperties_trans (sameProperties_iff.mpr h) k⟩
termination_by structural xs
end

end Schema

namespace Property

theorem sameList_iff {xs ys : List Property} :
    sameList xs ys = true ↔ Forall₂ (fun a b => a.same b = true) xs ys := by
  induction xs generalizing ys with
  | nil => cases ys <;> simp [sameList]
  | cons a rest ih => cases ys <;> simp [sameList, ih]

theorem sameList_trans {xs ys zs : List Property} (h : sameList xs ys = true)
    (k : sameList ys zs = true) : sameList xs zs = true := by
  induction xs generalizing ys zs with
  | nil => cases ys <;> cases zs <;> simp_all [sameList]
  | cons x xs ih =>
    cases ys <;> simp only [sameList, Bool.false_eq_true, Bool.and_eq_true] at h
    cases zs <;> simp only [sameList, Bool.false_eq_true, Bool.and_eq_true] at k ⊢
    exact ⟨Schema.same_trans h.1 k.1, ih h.2 k.2⟩

end Property

theorem Slots.same_trans {a b c : Slots} (h : a.same b = true) (k : b.same c = true) :
    a.same c = true := by
  simp only [Slots.same, Bool.and_eq_true] at *
  exact ⟨Property.sameList_trans h.1 k.1, Property.sameList_trans h.2 k.2⟩

end AgentGraph
