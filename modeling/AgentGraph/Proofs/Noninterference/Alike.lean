import Mathlib.Data.List.Forall2
import AgentGraph.Proofs.Equality.Fields
/-!
# Graphs that differ in hidden fields

Two components are alike if nothing but hidden fields tells them apart, here and in all that their
other fields hold. Which object a component is does not count, and what a hidden field holds, or
whether it is there at all, may differ freely.
-/
namespace AgentGraph
open List (Forall₂)

section Value
variable (S : Component → Component → Prop)

mutual
/-- Two values of one form whose components are related, place by place; all else is equal. -/
def Value.Alike : Value → Value → Prop
  | .data t, .data u => t = u
  | .component c, .component d => S c d
  | .property p, .property q => p = q
  | .list vs, .list us => alikeItems vs us
  | .map fs, .map gs => alikeEntries fs gs
  | _, _ => False
/-- Lists of values that are alike, item by item. -/
def alikeItems : List Value → List Value → Prop
  | [], [] => True
  | v :: vs, u :: us => v.Alike u ∧ alikeItems vs us
  | _, _ => False
/-- Mappings with the same keys in the same order whose values are alike. -/
def alikeEntries : List (String × Value) → List (String × Value) → Prop
  | [], [] => True
  | (k, v) :: fs, (l, u) :: gs => k = l ∧ v.Alike u ∧ alikeEntries fs gs
  | _, _ => False
end

end Value

section Value
variable {S T : Component → Component → Prop}

theorem alikeItems_iff {vs us : List Value} :
    alikeItems S vs us ↔ Forall₂ (Value.Alike S) vs us := by
  induction vs generalizing us with
  | nil => cases us <;> simp [alikeItems]
  | cons v rest ih => cases us <;> simp [alikeItems, ih]

theorem alikeEntries_iff {fs gs : Dict Value} :
    alikeEntries S fs gs ↔ Forall₂ (fun f g => f.1 = g.1 ∧ f.2.Alike S g.2) fs gs := by
  induction fs generalizing gs with
  | nil => cases gs <;> simp [alikeEntries]
  | cons f rest ih => cases gs <;> simp [alikeEntries, ih, and_assoc]

mutual
theorem Value.Alike.components {v u : Value} (h : v.Alike S u) :
    Forall₂ S v.components u.components := by
  match v with
  | .data _ | .property _ => cases u <;> simp_all [Value.Alike, Value.components]
  | .component _ =>
    cases u <;> simp only [Value.Alike] at h
    exact .cons h .nil
  | .list vs =>
    cases u <;> simp only [Value.Alike] at h
    exact alikeItems_components h
  | .map fs =>
    cases u <;> simp only [Value.Alike] at h
    exact alikeEntries_held h
termination_by structural v
theorem alikeItems_components {vs us : List Value} (h : alikeItems S vs us) :
    Forall₂ S (Value.componentsOfList vs) (Value.componentsOfList us) := by
  match vs, us with
  | [], [] => exact .nil
  | [], _ :: _ | _ :: _, [] => exact h.elim
  | v :: vs, u :: us => exact List.rel_append h.1.components (alikeItems_components h.2)
termination_by structural vs
theorem alikeEntries_held {fs gs : List (String × Value)} (h : alikeEntries S fs gs) :
    Forall₂ S (heldComponents fs) (heldComponents gs) := by
  match fs, gs with
  | [], [] => exact .nil
  | [], _ :: _ | _ :: _, [] => exact h.elim
  | (_, v) :: fs, (_, u) :: gs => exact List.rel_append h.2.1.components (alikeEntries_held h.2.2)
termination_by structural fs
end

mutual
/-- Values that are alike stay so under another relation that has the components at each place. -/
theorem Value.Alike.imp {v u : Value} (h : v.Alike S u)
    (himp : ∀ c ∈ v.components, ∀ d, S c d → T c d) : v.Alike T u := by
  match v with
  | .data _ | .property _ => cases u <;> simp_all [Value.Alike]
  | .component c =>
    cases u <;> simp only [Value.Alike] at h ⊢
    exact himp c (by simp [Value.components]) _ h
  | .list vs =>
    cases u <;> simp only [Value.Alike] at h ⊢
    exact alikeItems_imp h himp
  | .map fs =>
    cases u <;> simp only [Value.Alike] at h ⊢
    exact alikeEntries_imp h himp
termination_by structural v
theorem alikeItems_imp {vs us : List Value} (h : alikeItems S vs us)
    (himp : ∀ c ∈ Value.componentsOfList vs, ∀ d, S c d → T c d) : alikeItems T vs us := by
  match vs, us with
  | [], [] => trivial
  | [], _ :: _ | _ :: _, [] => exact h.elim
  | v :: vs, u :: us =>
    obtain ⟨hv, hvs⟩ := List.forall_mem_append.mp himp
    exact ⟨h.1.imp hv, alikeItems_imp h.2 hvs⟩
termination_by structural vs
theorem alikeEntries_imp {fs gs : List (String × Value)} (h : alikeEntries S fs gs)
    (himp : ∀ c ∈ heldComponents fs, ∀ d, S c d → T c d) : alikeEntries T fs gs := by
  match fs, gs with
  | [], [] => trivial
  | [], _ :: _ | _ :: _, [] => exact h.elim
  | (_, v) :: fs, (_, u) :: gs =>
    obtain ⟨hv, hfs⟩ := List.forall_mem_append.mp himp
    exact ⟨h.1, h.2.1.imp hv, alikeEntries_imp h.2.2 hfs⟩
termination_by structural fs
end

mutual
theorem Value.Alike.refl (v : Value) (hS : ∀ c, S c c) : v.Alike S v := by
  match v with
  | .data _ | .property _ => simp [Value.Alike]
  | .component c => exact hS c
  | .list vs => exact alikeItems_refl vs hS
  | .map fs => exact alikeEntries_refl fs hS
termination_by structural v
theorem alikeItems_refl (vs : List Value) (hS : ∀ c, S c c) : alikeItems S vs vs := by
  match vs with
  | [] => trivial
  | v :: rest => exact ⟨.refl v hS, alikeItems_refl rest hS⟩
termination_by structural vs
theorem alikeEntries_refl (fs : List (String × Value)) (hS : ∀ c, S c c) :
    alikeEntries S fs fs := by
  match fs with
  | [] => trivial
  | (_, v) :: rest => exact ⟨rfl, .refl v hS, alikeEntries_refl rest hS⟩
termination_by structural fs
end

theorem alikeEntries_filter {fs gs : Dict Value} (h : alikeEntries S fs gs)
    (test : String → Bool) :
    alikeEntries S (fs.filter fun f => test f.1) (gs.filter fun g => test g.1) := by
  rw [alikeEntries_iff] at *
  exact Dict.forall₂_filter h test

end Value

namespace Component
variable {hidden : String → String → Bool} {c d : Component}

/-- Two components agree in all that is written beside their fields, and in who may write them. -/
structure SameFrame (c d : Component) : Prop where
  id : c.id = d.id
  name : c.name = d.name
  description : c.description = d.description
  metadata : c.metadata = d.metadata
  type : c.componentType = d.componentType
  builtin : c.kind.isBuiltin = d.kind.isBuiltin

/-- The fields of a component that are not hidden. -/
def openFields (hidden : String → String → Bool) (c : Component) : Dict Value :=
  c.kind.fields.filter fun f => !hidden c.componentType f.1

/-- Related components agree but for their hidden fields, and what the others hold is related. -/
structure Respects (hidden : String → String → Bool) (S : Component → Component → Prop) : Prop where
  frame : ∀ c d, S c d → c.SameFrame d
  fields : ∀ c d, S c d → alikeEntries S (c.openFields hidden) (d.openFields hidden)

/-- Two graphs that are identical except for hidden fields, whether present or not, anywhere. -/
def EqualExcept (hidden : String → String → Bool) (c d : Component) : Prop :=
  ∃ S, Respects hidden S ∧ S c d

theorem respects_equalExcept : Respects hidden (EqualExcept hidden) := by
  constructor
  · rintro c d ⟨S, hS, hcd⟩
    exact hS.frame c d hcd
  · rintro c d ⟨S, hS, hcd⟩
    exact alikeEntries_imp (hS.fields c d hcd) fun a _ b hab => ⟨S, hS, hab⟩

/-- The relation unfolds: what two such components hold in their open fields is related again. -/
theorem equalExcept_iff : c.EqualExcept hidden d ↔ c.SameFrame d ∧
    alikeEntries (EqualExcept hidden) (c.openFields hidden) (d.openFields hidden) := by
  constructor
  · intro h
    exact ⟨respects_equalExcept.frame c d h, respects_equalExcept.fields c d h⟩
  · rintro ⟨hframe, hfields⟩
    -- the relation with the new pair added is respected, as its fields are related already
    refine ⟨fun a b => a.EqualExcept hidden b ∨ (a = c ∧ b = d), ⟨?_, ?_⟩, .inr ⟨rfl, rfl⟩⟩
    · rintro a b (hab | ⟨rfl, rfl⟩)
      · exact respects_equalExcept.frame a b hab
      · exact hframe
    · rintro a b (hab | ⟨rfl, rfl⟩)
      · exact alikeEntries_imp (respects_equalExcept.fields a b hab) fun _ _ _ => .inl
      · exact alikeEntries_imp hfields fun _ _ _ => .inl

theorem EqualExcept.refl (hidden : String → String → Bool) (c : Component) :
    c.EqualExcept hidden c := by
  refine ⟨Eq, ⟨?_, ?_⟩, rfl⟩
  · rintro c _ rfl
    exact ⟨rfl, rfl, rfl, rfl, rfl, rfl⟩
  · rintro c _ rfl
    exact alikeEntries_refl _ fun _ => rfl

theorem SameFrame.equalExcept (h : c.SameFrame d)
    (hopen : c.openFields hidden = d.openFields hidden) : c.EqualExcept hidden d := by
  refine equalExcept_iff.mpr ⟨h, ?_⟩
  rw [hopen]
  exact alikeEntries_refl _ (EqualExcept.refl hidden)

end Component
end AgentGraph
