import AgentGraph.Proofs.Dominator
import AgentGraph.Proofs.Equality.Children
import AgentGraph.Save.Placement
/-!
# The graph that is written

A writer sees the fields of a component that its policy lets through; the components that these hold
are the edges of the graph that is written. A component may stand at many places, and its copies
need not be one object: the graph is coherent if components of one id are equal. Then the ids form
a `Dag`, and routes of components are routes of ids.
-/
namespace AgentGraph
open List (Forall₂)

namespace Component
variable {kids : Component → List Component} {c d e : Component} {i : List String}

/-- The ids on a way from one component down to another, both ends included. -/
inductive Route (kids : Component → List Component) :
    Component → List String → Component → Prop
  | here (c : Component) : Route kids c [c.id] c
  | step {c d e : Component} {i : List String} : d ∈ kids c → Route kids d i e →
      Route kids c (c.id :: i) e

/-- There is a way from one component to another, perhaps of no step. -/
def Reaches (kids : Component → List Component) (c d : Component) : Prop :=
  ∃ i, Route kids c i d

theorem Reaches.refl (c : Component) : Reaches kids c c := ⟨_, .here c⟩

theorem Reaches.step (h : d ∈ kids c) (k : Reaches kids d e) : Reaches kids c e := by
  obtain ⟨i, p⟩ := k
  exact ⟨_, .step h p⟩

theorem Reaches.trans (h : Reaches kids c d) (k : Reaches kids d e) : Reaches kids c e := by
  obtain ⟨i, p⟩ := h
  induction p with
  | here => exact k
  | step hd _ ih => exact .step hd (ih k)

theorem Reaches.kid (h : Reaches kids c d) (he : e ∈ kids d) : Reaches kids c e :=
  h.trans (.step he (.refl e))

theorem Reaches.mono {kids' : Component → List Component}
    (h : Reaches kids c d) (hkids : ∀ c d, d ∈ kids c → d ∈ kids' c) : Reaches kids' c d := by
  obtain ⟨i, p⟩ := h
  induction p with
  | here => exact .refl _
  | step hd _ ih => exact .step (hkids _ _ hd) ih

/-- What is reached is the start, or it is reached through a component that the start holds. -/
theorem reaches_iff : Reaches kids c e ↔ c = e ∨ ∃ d ∈ kids c, Reaches kids d e := by
  constructor
  · rintro ⟨i, p⟩
    cases p with
    | here => exact .inl rfl
    | step hd p => exact .inr ⟨_, hd, _, p⟩
  · rintro (rfl | ⟨d, hd, h⟩)
    · exact .refl c
    · exact .step hd h

/-- A list that holds a root and all that its components hold has everything that is reached. -/
theorem Reaches.mem {cs : List Component} (h : Reaches kids c d) (hc : c ∈ cs)
    (hcs : ∀ e ∈ cs, ∀ f ∈ kids e, f ∈ cs) : d ∈ cs := by
  obtain ⟨i, p⟩ := h
  induction p with
  | here => exact hc
  | step hd _ ih => exact ih (hcs _ hc _ hd)

/-- Components of one id that are reached from a root are equal. -/
def Coherent (kids : Component → List Component) (root : Component) : Prop :=
  ∀ c d, Reaches kids root c → Reaches kids root d → c.id = d.id → c.same d = true

theorem weight_le_of_mem {cs : List Component} (h : c ∈ cs) : c.weight ≤ weightOfList cs := by
  induction cs with
  | nil => simp at h
  | cons d rest ih =>
    simp only [weightOfList]
    rcases List.mem_cons.mp h with rfl | h
    · omega
    · have := ih h
      omega

theorem weight_lt_of_child (h : d ∈ c.children) : d.weight < c.weight :=
  Nat.lt_of_le_of_lt (weight_le_of_mem h) c.weight_children

end Component

/-- The writer that a save uses. -/
def SaveOptions.writer (options : SaveOptions) (registry : Registry) (policy : Policy) : Writer :=
  { registry, policy, target := ⟨options.release, options.naming⟩, maxDepth := options.maxDepth }

/-- Whether a field of a type gets through a policy at a release. -/
def Policy.shows (p : Policy) (release : Release) (type field : String) : Bool :=
  p.fieldAllowed type field release && !p.isSensitive type field

namespace Release

theorem atMost_current (release : Release) : release.atMost .current = true := by
  cases release <;> rfl

end Release

namespace Policy

theorem kindAllowed_current (p : Policy) (type : String) : p.kindAllowed type .current = true := by
  unfold kindAllowed
  split
  · exact Release.atMost_current _
  · rfl

/-- At the current release only secrets are kept out. -/
theorem shows_current (p : Policy) (type field : String) :
    p.shows .current type field = !p.isSensitive type field := by
  have hallowed : p.fieldAllowed type field .current = true := by
    unfold fieldAllowed
    split
    · exact Release.atMost_current _
    · rfl
  rw [shows, hallowed, Bool.true_and]

end Policy

namespace Writer
variable {w : Writer} {root c d : Component}

/-- Whether a field of a type gets through the policy. -/
def shows (w : Writer) (type field : String) : Bool := w.policy.shows w.target.release type field

/-- The fields of a component that are seen: none if the kind is gated as a whole. -/
def shown (w : Writer) (c : Component) : Dict Value :=
  if w.policy.kindAllowed c.componentType w.target.release then
    c.kind.fields.filter fun f => w.shows c.componentType f.1
  else []

/-- The components at the positions of the seen fields. -/
def children (w : Writer) (c : Component) : List Component := heldComponents (w.shown c)

theorem mem_shown {f : String × Value} (h : f ∈ w.shown c) : f ∈ c.kind.fields := by
  unfold shown at h
  split at h
  · exact List.mem_of_mem_filter h
  · simp at h

theorem shows_of_mem_shown {f : String × Value} (h : f ∈ w.shown c) :
    w.shows c.componentType f.1 = true := by
  unfold shown at h
  split at h
  · exact (List.mem_filter.mp h).2
  · cases h

theorem mem_children (h : d ∈ w.children c) : d ∈ c.children :=
  heldComponents_mono (fun _ => mem_shown) h

theorem children_paired (h : c.same d = true) (hc : c.Proper) :
    ∃ l, Forall₂ (fun a b => a.same b = true) (w.children c) l ∧ l.Perm (w.children d) := by
  have htype := Component.same_type h
  simp only [children, shown, ← htype]
  split
  · exact c.held_paired h hc (w.shows c.componentType)
  · exact ⟨[], .nil, .refl _⟩

/-- The component and everything that it holds, each at every place where it stands, in order. -/
def unfold (w : Writer) (c : Component) : List Component :=
  c :: (w.children c).attach.flatMap fun d => w.unfold d.1
termination_by c.weight
decreasing_by exact Component.weight_lt_of_child (mem_children d.2)

theorem unfold_eq (w : Writer) (c : Component) :
    w.unfold c = c :: (w.children c).flatMap w.unfold := by
  rw [unfold, List.flatMap_subtype (g := w.unfold) (fun _ _ => rfl), List.unattach_attach]

theorem mem_unfold : d ∈ w.unfold c ↔ Component.Reaches w.children c d := by
  induction hn : c.weight using Nat.strongRecOn generalizing c with
  | _ n ih =>
    subst hn
    rw [unfold_eq, Component.reaches_iff, List.mem_cons, List.mem_flatMap, eq_comm]
    refine or_congr_right (exists_congr fun e => and_congr_right fun he => ?_)
    exact ih _ (Component.weight_lt_of_child (mem_children he)) rfl

/-- The components that are reached, the first of each id. -/
def distinct (w : Writer) (root : Component) : List Component :=
  firstOfEachId [] (w.unfold root)

/-- At how many positions of the distinct components an id stands. -/
def occurrences (w : Writer) (root : Component) (id : String) : Nat :=
  ((w.distinct root).flatMap fun c => (w.children c).map (·.id)).count id

end Writer

theorem mem_firstOfEachId {seen : List String} {cs : List Component} {c : Component}
    (h : c ∈ firstOfEachId seen cs) : c ∈ cs ∧ c.id ∉ seen := by
  induction cs generalizing seen with
  | nil => simp [firstOfEachId] at h
  | cons d rest ih =>
    rw [firstOfEachId] at h
    split at h
    · exact ⟨List.mem_cons_of_mem _ (ih h).1, (ih h).2⟩
    · rename_i hd
      rcases List.mem_cons.mp h with rfl | h
      · exact ⟨List.mem_cons_self, by simpa using hd⟩
      · obtain ⟨hm, hs⟩ := ih h
        exact ⟨List.mem_cons_of_mem _ hm, fun hc => hs (List.mem_cons_of_mem _ hc)⟩

/-- Every id that was not seen before keeps one component. -/
theorem exists_firstOfEachId {seen : List String} {cs : List Component} {c : Component}
    (h : c ∈ cs) (hs : c.id ∉ seen) : ∃ d ∈ firstOfEachId seen cs, d.id = c.id := by
  induction cs generalizing seen with
  | nil => simp at h
  | cons d rest ih =>
    rw [firstOfEachId]
    by_cases hd : d.id ∈ seen
    · have hcd : c ≠ d := by rintro rfl; exact hs hd
      rw [if_pos (by simpa using hd)]
      exact ih ((List.mem_cons.mp h).resolve_left hcd) hs
    · rw [if_neg (by simpa using hd)]
      by_cases hc : c.id = d.id
      · exact ⟨d, List.mem_cons_self, hc.symm⟩
      · have hcd : c ≠ d := by rintro rfl; exact hc rfl
        have hnew : c.id ∉ d.id :: seen := by simp [hc, hs]
        obtain ⟨e, he, hid⟩ := ih ((List.mem_cons.mp h).resolve_left hcd) hnew
        exact ⟨e, List.mem_cons_of_mem _ he, hid⟩

theorem nodup_firstOfEachId {seen : List String} {cs : List Component} :
    ((firstOfEachId seen cs).map (·.id)).Nodup := by
  induction cs generalizing seen with
  | nil => simp [firstOfEachId]
  | cons d rest ih =>
    rw [firstOfEachId]
    split
    · exact ih
    · rw [List.map_cons, List.nodup_cons]
      refine ⟨fun h => ?_, ih⟩
      obtain ⟨e, he, hid⟩ := List.mem_map.mp h
      exact (mem_firstOfEachId he).2 (by simp [hid])

end AgentGraph
