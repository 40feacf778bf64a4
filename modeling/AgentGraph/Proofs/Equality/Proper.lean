import AgentGraph.Proofs.Equality.Data
import AgentGraph.Proofs.Plain
/-!
# Equality of proper data

Mappings are compared by looking each key of the first up in the second. Where no mapping repeats a key
this is reflexive and symmetric, for trees and for schemas.
-/
namespace AgentGraph
open List (Forall₂)

theorem Double.same_symm {a b : UInt64} (h : Double.same a b = true) :
    Double.same b a = true := by
  simp only [Double.same, Bool.or_eq_true, Bool.and_eq_true, beq_iff_eq] at *
  rcases h with rfl | ⟨ha, hb⟩
  · exact .inl rfl
  · exact .inr ⟨hb, ha⟩

theorem Number.same_refl (a : Number) : a.same a = true := by
  cases a <;> simp [Number.same, Double.same]

theorem Number.same_symm {a b : Number} (h : a.same b = true) : b.same a = true := by
  cases a <;> cases b <;> simp only [Number.same, Bool.false_eq_true, beq_iff_eq] at h ⊢
  · exact h.symm
  · exact Double.same_symm h

namespace Tree

mutual
theorem Proper.same_refl {t : Tree} (h : t.Proper) : t.same t = true := by
  match t with
  | .null | .bool _ | .string _ => simp [same]
  | .number n => exact n.same_refl
  | .list ts => exact properTrees_refl h
  | .map d =>
    simp only [same, BEq.rfl, Bool.true_and]
    exact sameEntries_iff.mpr fun f hf =>
      ⟨f.2, Dict.get?_of_mem h.1 hf, properTreeEntries_refl h.2 f hf⟩
theorem properTrees_refl {ts : List Tree} (h : properTrees ts) : sameList ts ts = true := by
  match ts with
  | [] => rfl
  | t :: rest =>
    simp only [sameList, Bool.and_eq_true]
    exact ⟨h.1.same_refl, properTrees_refl h.2⟩
theorem properTreeEntries_refl {d : List (String × Tree)} (h : properTreeEntries d) :
    ∀ f ∈ d, f.2.same f.2 = true := by
  match d with
  | [] => simp
  | (_, t) :: rest =>
    exact List.forall_mem_cons.mpr ⟨h.1.same_refl, properTreeEntries_refl h.2⟩
end

mutual
theorem Proper.same_symm {t u : Tree} (ht : t.Proper) (h : t.same u = true) :
    u.same t = true := by
  match t with
  | .null | .bool _ | .string _ => cases u <;> simp_all [same]
  | .number _ =>
    cases u <;> simp only [same, Bool.false_eq_true] at h ⊢
    exact Number.same_symm h
  | .list ts =>
    cases u <;> simp only [same, Bool.false_eq_true] at h ⊢
    exact properTrees_symm ht h
  | .map d =>
    cases u <;> simp only [same, Bool.false_eq_true, Bool.and_eq_true, beq_iff_eq] at h ⊢
    refine ⟨h.1.symm, sameEntries_iff.mpr
      (Dict.mirrored (R := fun x y => y.same x = true) ht.1 h.1 fun f hf => ?_)⟩
    obtain ⟨v, hv, hfv⟩ := sameEntries_iff.mp h.2 f hf
    exact ⟨v, hv, properTreeEntries_symm ht.2 f hf v hfv⟩
theorem properTrees_symm {ts us : List Tree} (ht : properTrees ts)
    (h : sameList ts us = true) : sameList us ts = true := by
  match ts with
  | [] => cases us <;> simp_all [sameList]
  | t :: rest =>
    cases us <;> simp only [sameList, Bool.false_eq_true, Bool.and_eq_true] at h ⊢
    exact ⟨ht.1.same_symm h.1, properTrees_symm ht.2 h.2⟩
theorem properTreeEntries_symm {d : List (String × Tree)} (hd : properTreeEntries d) :
    ∀ f ∈ d, ∀ u, f.2.same u = true → u.same f.2 = true := by
  match d with
  | [] => simp
  | (_, t) :: rest =>
    exact List.forall_mem_cons.mpr ⟨fun u => hd.1.same_symm, properTreeEntries_symm hd.2⟩
end

theorem Proper.sameDict_refl {d : Dict Tree} (h : (map d).Proper) : sameDict d d = true :=
  h.same_refl

theorem Proper.sameDict_symm {d e : Dict Tree} (hd : (map d).Proper)
    (h : sameDict d e = true) : sameDict e d = true :=
  hd.same_symm (u := .map e) h

end Tree

namespace Schema

mutual
/-- No mapping in a schema repeats a key. -/
def Proper : Schema → Prop
  | .mk _ _ fallback type extra =>
    (∀ t, fallback = some t → t.Proper) ∧ properType type ∧ (Tree.map extra).Proper
/-- No mapping in a type repeats a key. -/
def properType : SchemaType → Prop
  | .array (some items) => items.Proper
  | .object properties additional =>
    (Dict.keys properties).Nodup ∧ properProperties properties ∧ properAdditional additional
  | .anyOf alternatives => properSchemas alternatives
  | _ => True
/-- No mapping in what is said of other keys repeats a key. -/
def properAdditional : Additional → Prop
  | .following schema => schema.Proper
  | _ => True
/-- No mapping in the schemas of a list repeats a key. -/
def properSchemas : List Schema → Prop
  | [] => True
  | s :: rest => s.Proper ∧ properSchemas rest
/-- No mapping in the schemas of properties repeats a key. -/
def properProperties : List (String × Schema) → Prop
  | [] => True
  | (_, s) :: rest => s.Proper ∧ properProperties rest
end

mutual
theorem Proper.same_refl {s : Schema} (h : s.Proper) : s.same s = true := by
  match s with
  | .mk t d f ty e =>
    refine same_iff.mpr ⟨rfl, rfl, fun u hu => ⟨u, hu, (h.1 u hu).same_refl⟩, id, ?_, ?_⟩
    · exact properType_refl h.2.1
    · exact h.2.2.sameDict_refl
termination_by structural s
theorem properType_refl {a : SchemaType} (h : properType a) : sameTypePart a a = true := by
  match a with
  | .any | .null | .boolean | .integer | .number | .string | .array none => simp [sameTypePart]
  | .array (some s) =>
    rw [sameTypePart]
    exact Proper.same_refl (s := s) h
  | .object ps b =>
    simp only [sameTypePart, BEq.rfl, Bool.true_and, Bool.and_eq_true]
    refine ⟨sameProperties_iff.mpr fun f hf => ?_, properAdditional_refl h.2.2⟩
    exact ⟨f.2, Dict.get?_of_mem h.1 hf, properProperties_refl h.2.1 f hf⟩
  | .anyOf ss =>
    rw [sameTypePart]
    exact properSchemas_refl h
termination_by structural a
theorem properAdditional_refl {a : Additional} (h : properAdditional a) :
    sameAdditional a a = true := by
  match a with
  | .unspecified | .allowed _ => simp [sameAdditional]
  | .following s =>
    rw [sameAdditional]
    exact Proper.same_refl (s := s) h
termination_by structural a
theorem properSchemas_refl {ss : List Schema} (h : properSchemas ss) :
    sameList ss ss = true := by
  match ss with
  | [] => simp [sameList]
  | s :: rest =>
    simp only [sameList, Bool.and_eq_true]
    exact ⟨h.1.same_refl, properSchemas_refl h.2⟩
termination_by structural ss
theorem properProperties_refl {ps : List (String × Schema)} (h : properProperties ps) :
    ∀ f ∈ ps, f.2.same f.2 = true := by
  match ps with
  | [] => simp
  | (_, s) :: rest =>
    exact List.forall_mem_cons.mpr ⟨h.1.same_refl, properProperties_refl h.2⟩
termination_by structural ps
end

mutual
theorem Proper.same_symm {s t : Schema} (hs : s.Proper) (h : s.same t = true) :
    t.same s = true := by
  match s with
  | .mk _ _ f ty e =>
    obtain ⟨ht, hd, hf, hn, hty, he⟩ := same_iff.mp h
    refine same_iff.mpr ⟨ht.symm, hd.symm, fun u hu => ?_, fun hu => ?_, ?_, ?_⟩
    · cases f with
      | none => simp [hn rfl] at hu
      | some v =>
        obtain ⟨u', hu', huv⟩ := hf v rfl
        obtain rfl : u = u' := Option.some.inj (hu.symm.trans hu')
        exact ⟨v, rfl, (hs.1 v rfl).same_symm huv⟩
    · cases f with
      | none => rfl
      | some v =>
        obtain ⟨u', hu', -⟩ := hf v rfl
        simp [hu'] at hu
    · exact properType_symm hs.2.1 hty
    · exact hs.2.2.sameDict_symm he
termination_by structural s
theorem properType_symm {a b : SchemaType} (ha : properType a)
    (h : sameTypePart a b = true) : sameTypePart b a = true := by
  match a with
  | .any | .null | .boolean | .integer | .number | .string => cases b <;> simp_all [sameTypePart]
  | .array none =>
    cases b <;> try simp only [sameTypePart, Bool.false_eq_true] at h
    rename_i y
    cases y <;> simp only [sameTypePart, Bool.false_eq_true] at h ⊢
  | .array (some s) =>
    cases b <;> try simp only [sameTypePart, Bool.false_eq_true] at h
    rename_i y
    cases y <;> simp only [sameTypePart, Bool.false_eq_true] at h ⊢
    exact Proper.same_symm (s := s) ha h
  | .object ps c =>
    cases b <;>
      simp only [sameTypePart, Bool.false_eq_true, Bool.and_eq_true, beq_iff_eq] at h ⊢
    obtain ⟨⟨hlen, hps⟩, hc⟩ := h
    refine ⟨⟨hlen.symm, sameProperties_iff.mpr (Dict.mirrored
      (R := fun x y => y.same x = true) ha.1 hlen fun f hf => ?_)⟩,
      properAdditional_symm ha.2.2 hc⟩
    obtain ⟨s, hget, hs⟩ := sameProperties_iff.mp hps f hf
    exact ⟨s, hget, properProperties_symm ha.2.1 f hf s hs⟩
  | .anyOf ss =>
    cases b <;> simp only [sameTypePart, Bool.false_eq_true] at h ⊢
    have hss : properSchemas ss := ha
    exact properSchemas_symm hss h
termination_by structural a
theorem properAdditional_symm {a b : Additional} (ha : properAdditional a)
    (h : sameAdditional a b = true) : sameAdditional b a = true := by
  match a with
  | .unspecified | .allowed _ => cases b <;> simp_all [sameAdditional]
  | .following s =>
    cases b <;> simp only [sameAdditional, Bool.false_eq_true] at h ⊢
    exact Proper.same_symm (s := s) ha h
termination_by structural a
theorem properSchemas_symm {ss ts : List Schema} (hs : properSchemas ss)
    (h : sameList ss ts = true) : sameList ts ss = true := by
  match ss with
  | [] => cases ts <;> simp_all [sameList]
  | s :: rest =>
    cases ts <;> simp only [sameList, Bool.false_eq_true, Bool.and_eq_true] at h ⊢
    exact ⟨hs.1.same_symm h.1, properSchemas_symm hs.2 h.2⟩
termination_by structural ss
theorem properProperties_symm {ps : List (String × Schema)} (hp : properProperties ps) :
    ∀ f ∈ ps, ∀ t, f.2.same t = true → t.same f.2 = true := by
  match ps with
  | [] => simp
  | (_, s) :: rest =>
    exact List.forall_mem_cons.mpr ⟨fun t => hp.1.same_symm, properProperties_symm hp.2⟩
termination_by structural ps
end

end Schema

namespace Property

/-- No mapping in the schemas of a list of properties repeats a key. -/
def ProperList (ps : List Property) : Prop := ∀ p ∈ ps, p.schema.Proper

theorem ProperList.refl {ps : List Property} (h : ProperList ps) : sameList ps ps = true := by
  rw [sameList_iff, List.forall₂_same]
  exact fun p hp => (h p hp).same_refl

theorem ProperList.symm {ps qs : List Property} (hp : ProperList ps)
    (h : sameList ps qs = true) : sameList qs ps = true := by
  rw [sameList_iff] at *
  refine List.Forall₂.flip ((List.forall₂_and_left (p := (· ∈ ps)) _ _).mpr ⟨fun _ => id, h⟩ |>.imp ?_)
  rintro p q ⟨hmem, hpq⟩
  exact (hp p hmem).same_symm hpq

end Property

namespace Slots

/-- No mapping in the schemas of inputs and outputs repeats a key. -/
def Proper (s : Slots) : Prop := Property.ProperList s.inputs ∧ Property.ProperList s.outputs

theorem Proper.same_refl {s : Slots} (h : s.Proper) : s.same s = true := by
  rw [same, Bool.and_eq_true]
  exact ⟨h.1.refl, h.2.refl⟩

theorem Proper.same_symm {s t : Slots} (hs : s.Proper) (h : s.same t = true) :
    t.same s = true := by
  rw [same, Bool.and_eq_true] at *
  exact ⟨hs.1.symm h.1, hs.2.symm h.2⟩

end Slots
end AgentGraph
