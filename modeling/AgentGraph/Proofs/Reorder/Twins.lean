import AgentGraph.Proofs.Equality.Keyed
import AgentGraph.Proofs.Load.Built
import AgentGraph.Proofs.Reorder.Schema
/-!
# Twins

Two components are twins if they are equal and the objects at each place of the one correspond to those
at the same place of the other. Where objects correspond one to one, twins share objects alike. What is
expected of a component is expected of its twin.
-/
namespace AgentGraph
open List (Forall₂)
open Relation (ReflTransGen)

theorem Kind.Keyed.slots {k : Kind} {s : Slots} (h : k.Keyed) (hs : k.slots? = some s) : s.Proper := by
  cases k with
  | tool t =>
    cases hs
    exact Tool.Keyed.slots h
  | agent l p ts hu s =>
    cases hs
    exact h.2.2
  | flow n ns cs ds s =>
    cases hs
    exact h.2.2.2.2
  | node role s =>
    cases hs
    exact h.2
  | _ => cases hs

namespace Component

/-- The components of the second pair stand at one place among the children of those of the first. -/
def Beside (p q : Component × Component) : Prop :=
  ∃ i : Nat, p.1.children[i]? = some q.1 ∧ p.2.children[i]? = some q.2

/-- Two components stand at one place in two graphs: the same way leads to them from both roots. -/
def SamePlace (p q : Component × Component) : Prop := ReflTransGen Beside p q

/-- Two graphs share objects alike: at each place they go on with as many components, and what is one
object at two places of the one is one object at these places of the other. -/
structure SharesAlike (c c' : Component) : Prop where
  places : ∀ d d', SamePlace (c, c') (d, d') → d.children.length = d'.children.length
  objects : ∀ d d' e e', SamePlace (c, c') (d, d') → SamePlace (c, c') (e, e') →
    d.isSameObject e = d'.isSameObject e'

/-- Equal components with corresponding objects at each place. No object of the inputs and outputs of
the first names a property twice. -/
structure Twins (ρ : Nat → Nat → Prop) (c c' : Component) : Prop where
  same : c.same c' = true
  names : ∀ p ∈ c.inputs ++ c.outputs, p.schema.NamesOnce
  places : ∀ d d', SamePlace (c, c') (d, d') →
    ρ d.handle d'.handle ∧ d.children.length = d'.children.length

/-- Objects that correspond do so one to one. -/
structure Matching (ρ : Nat → Nat → Prop) : Prop where
  right : ∀ a b b', ρ a b → ρ a b' → b = b'
  left : ∀ a a' b, ρ a b → ρ a' b → a = a'

variable {ρ : Nat → Nat → Prop} {c c' d d' : Component}

theorem Twins.sharesAlike (h : c.Twins ρ c') (hρ : Matching ρ) : c.SharesAlike c' where
  places d d' hd := (h.places d d' hd).2
  objects d d' e e' hd he := by
    have hdd := (h.places d d' hd).1
    have hee := (h.places e e' he).1
    rw [isSameObject, isSameObject, Bool.eq_iff_iff, beq_iff_eq, beq_iff_eq]
    constructor
    · intro heq
      exact hρ.right _ _ _ hdd (heq ▸ hee)
    · intro heq
      exact hρ.left _ _ _ hdd (heq ▸ hee)

theorem samePlace_self (h : SamePlace (c, c) (d, d')) : d = d' ∧ Reaches children c d := by
  have hall : ∀ p, SamePlace (c, c) p → p.1 = p.2 ∧ Reaches children c p.1 := by
    intro p hp
    induction hp with
    | refl => exact ⟨rfl, .refl c⟩
    | @tail q p _ hstep ih =>
      obtain ⟨i, hleft, hright⟩ := hstep
      rw [← ih.1, hleft] at hright
      exact ⟨Option.some.inj hright, ih.2.kid (List.mem_of_getElem? hleft)⟩
  exact hall (d, d') h

/-- A keyed component is its own twin where its objects correspond to themselves. -/
theorem Keyed.twins_self (h : c.Keyed) (hρ : ∀ d, Reaches children c d → ρ d.handle d.handle) :
    c.Twins ρ c where
  same := h.same_refl
  names := forall_mem_slots fun _ hs p hp => by
    have hproper := h.kind.slots hs
    rcases List.mem_append.mp hp with hp | hp
    · exact (hproper.1 p hp).namesOnce
    · exact (hproper.2 p hp).namesOnce
  places d d' hd := by
    obtain ⟨rfl, hreach⟩ := samePlace_self hd
    exact ⟨hρ d hreach, rfl⟩

end Component

/-- Kinds that are equal and hold twins in order. -/
structure Kind.Twins (ρ : Nat → Nat → Prop) (k k' : Kind) : Prop where
  same : k.same k' = true
  names : ∀ s, k.slots? = some s → ∀ p ∈ s.inputs ++ s.outputs, p.schema.NamesOnce
  held : Forall₂ (Component.Twins ρ) (heldComponents k.fields) (heldComponents k'.fields)

theorem Slots.Twins.names {s s' : Slots} (h : s.Twins s') :
    ∀ p ∈ s.inputs ++ s.outputs, p.schema.NamesOnce := by
  intro p hp
  rcases List.mem_append.mp hp with hp | hp
  · obtain ⟨q, -, hpq⟩ := exists_left h.inputs.flip hp
    exact hpq.names
  · obtain ⟨q, -, hpq⟩ := exists_left h.outputs.flip hp
    exact hpq.names

namespace Kind.Twins
variable {ρ : Nat → Nat → Prop} {c c' d d' : Component} {cs cs' ds ds' es es' : List Component}
  {s s' : Slots}

/-! Each kind makes twins of twins. -/

theorem modelConfig {a b : ModelConfig} (h : a.same b = true) :
    Twins ρ (.modelConfig a) (.modelConfig b) where
  same := by rwa [Kind.same]
  names := nofun
  held := by simp

theorem tool {a b : Tool} (h : a.same b = true) (hs : a.slots.Twins b.slots) :
    Twins ρ (.tool a) (.tool b) where
  same := by rwa [Kind.same]
  names := by
    rintro _ ⟨⟩
    exact hs.names
  held := by simp

theorem agent {prompt : String} {human : Bool} (hc : c.Twins ρ c')
    (hcs : Forall₂ (Component.Twins ρ) cs cs') (hs : s.Twins s') :
    Twins ρ (.agent c prompt cs human s) (.agent c' prompt cs' human s') where
  same := by
    have hall := sameComponents_iff.mpr (hcs.imp fun _ _ => Component.Twins.same)
    simp only [Kind.same, hc.same, hall, hs.same, BEq.rfl, Bool.and_self]
  names := by
    rintro _ ⟨⟩
    exact hs.names
  held := by
    rw [held_agent, held_agent]
    exact .cons hc hcs

theorem swarm {ps ps' : List (Component × Component)} (hc : c.Twins ρ c')
    (hps : Forall₂ (fun p q => p.1.Twins ρ q.1 ∧ p.2.Twins ρ q.2) ps ps') :
    Twins ρ (.swarm c ps) (.swarm c' ps') where
  same := by
    have hall := samePairs_iff.mpr (hps.imp fun _ _ hpq => ⟨hpq.1.same, hpq.2.same⟩)
    simp only [Kind.same, hc.same, hall, Bool.and_self]
  names := nofun
  held := by
    rw [held_swarm, held_swarm]
    exact .cons hc (Restored.heldPairs hps)

theorem managerWorkers (hc : c.Twins ρ c') (hcs : Forall₂ (Component.Twins ρ) cs cs') :
    Twins ρ (.managerWorkers c cs) (.managerWorkers c' cs') where
  same := by
    have hall := sameComponents_iff.mpr (hcs.imp fun _ _ => Component.Twins.same)
    simp only [Kind.same, hc.same, hall, Bool.and_self]
  names := nofun
  held := by
    rw [held_managerWorkers, held_managerWorkers]
    exact .cons hc hcs

theorem flow (hc : c.Twins ρ c') (hcs : Forall₂ (Component.Twins ρ) cs cs')
    (hds : Forall₂ (Component.Twins ρ) ds ds') (hes : Forall₂ (Component.Twins ρ) es es')
    (hs : s.Twins s') : Twins ρ (.flow c cs ds es s) (.flow c' cs' ds' es' s') where
  same := by
    have hnodes := sameComponents_iff.mpr (hcs.imp fun _ _ => Component.Twins.same)
    have hcontrol := sameComponents_iff.mpr (hds.imp fun _ _ => Component.Twins.same)
    have hdata := sameComponents_iff.mpr (hes.imp fun _ _ => Component.Twins.same)
    simp only [Kind.same, hc.same, hnodes, hcontrol, hdata, hs.same, Bool.and_self]
  names := by
    rintro _ ⟨⟩
    exact hs.names
  held := by
    rw [held_flow, held_flow]
    exact .cons hc (List.rel_append hcs (List.rel_append hds hes))

theorem node {role role' : NodeRole} (hrole : role.same role' = true)
    (hheld : Forall₂ (Component.Twins ρ) (heldByRole role) (heldByRole role'))
    (hs : s.Twins s') : Twins ρ (.node role s) (.node role' s') where
  same := by rw [Kind.same, hrole, hs.same, Bool.and_self]
  names := by
    rintro _ ⟨⟩
    exact hs.names
  held := by rwa [held_node, held_node, held_role, held_role]

theorem controlFlowEdge {branch : Option String} (hc : c.Twins ρ c') (hd : d.Twins ρ d') :
    Twins ρ (.controlFlowEdge c branch d) (.controlFlowEdge c' branch d') where
  same := by simp only [Kind.same, hc.same, hd.same, BEq.rfl, Bool.and_self]
  names := nofun
  held := by
    rw [held_controlFlowEdge, held_controlFlowEdge]
    exact .cons hc (.cons hd .nil)

theorem dataFlowEdge {output input : String} (hc : c.Twins ρ c') (hd : d.Twins ρ d') :
    Twins ρ (.dataFlowEdge c output d input) (.dataFlowEdge c' output d' input) where
  same := by simp only [Kind.same, hc.same, hd.same, BEq.rfl, Bool.and_self]
  names := nofun
  held := by
    rw [held_dataFlowEdge, held_dataFlowEdge]
    exact .cons hc (.cons hd .nil)

end Kind.Twins

namespace Component
variable {ρ : Nat → Nat → Prop} {c c' : Component}

/-- Components of twin kinds are twins, if they are otherwise equal and their objects correspond. -/
theorem twins_mk {handle handle' : Nat} {id name : String} {description : Option String}
    {metadata metadata' : Dict Tree} {k k' : Kind} (hhandle : ρ handle handle')
    (hmetadata : Tree.sameDict metadata metadata' = true) (hk : k.Twins ρ k') :
    Twins ρ (.mk handle id name description metadata k)
      (.mk handle' id name description metadata' k') where
  same := same_iff.mpr ⟨rfl, rfl, rfl, hmetadata, hk.same⟩
  names := forall_mem_slots fun s hs => hk.names s hs
  places d d' hd := by
    rcases ReflTransGen.cases_head hd with heq | ⟨⟨e, e'⟩, ⟨i, hleft, hright⟩, hrest⟩
    · cases heq
      exact ⟨hhandle, hk.held.length_eq⟩
    · have hee := List.forall₂_iff_get.mp hk.held
      obtain ⟨hi, rfl⟩ := List.getElem?_eq_some_iff.mp hleft
      obtain ⟨hi', rfl⟩ := List.getElem?_eq_some_iff.mp hright
      exact (hee.2 i hi hi').places d d' hrest

theorem covered_of_same {ps qs : List Property} (h : Property.sameList ps qs = true)
    (hnames : ∀ p ∈ ps, p.schema.NamesOnce) : Property.Covered ps qs :=
  Property.covered_of_forall₂ (Property.sameList_iff.mp h) (fun _ _ => Property.title_eq_of_same)
    fun p hp _ _ hpq => ⟨hnames p hp, Schema.sameType_of_same hpq⟩

/-- Twins pass the same checks. -/
theorem standing_twins : Standing (Twins ρ) where
  alike _ _ h := (alike_of_same h.same).symm
  outputs _ _ h := covered_of_same (sameList_slots h.same).2 fun p hp =>
    h.names p (List.mem_append_right _ hp)
  inputs _ _ h := covered_of_same (sameList_slots h.same).1 fun p hp =>
    h.names p (List.mem_append_left _ hp)

end Component
end AgentGraph
