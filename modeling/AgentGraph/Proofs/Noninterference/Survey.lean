import AgentGraph.Proofs.Noninterference.Alike
import AgentGraph.Proofs.Noninterference.Runs
import AgentGraph.Save
/-!
# Surveys of graphs that are alike

Two surveys of related components find related components under the same ids and make the same
tables. They part only where one of them meets two components of one id that it cannot take for the
same. So the sidecars have the same components.
-/
namespace AgentGraph
open List (Forall₂)

/-- Related components agree beside their fields, and what a writer sees of their fields is alike. -/
structure Writer.Relates (w : Writer) (S : Component → Component → Prop) : Prop where
  frame : ∀ c d, S c d → c.SameFrame d
  fields : ∀ c d, S c d → Matched (alikeEntries S) (w.visibleFields c) (w.visibleFields d)

/-- What two surveys know is related: the same ids in the same order, and the same tables. -/
structure Survey.Alike (S : Component → Component → Prop) (s t : Survey) : Prop where
  found : Forall₂ (fun p q => p.1 = q.1 ∧ S p.2.1 q.2.1 ∧ alikeEntries S p.2.2 q.2.2)
    s.found t.found
  tables : s.tables = t.tables

namespace Survey.Alike
variable {S : Component → Component → Prop} {s t : Survey}

theorem empty : Survey.Alike S .empty .empty := ⟨.nil, rfl⟩

theorem get? (h : Survey.Alike S s t) (id : String) :
    (s.found.get? id = none ∧ t.found.get? id = none) ∨
      ∃ p q, s.found.get? id = some p ∧ t.found.get? id = some q ∧
        S p.1 q.1 ∧ alikeEntries S p.2 q.2 :=
  Dict.forall₂_get? h.found id

theorem component? (h : Survey.Alike S s t) (id : String) :
    (s.component? id = none ∧ t.component? id = none) ∨
      ∃ c d, s.component? id = some c ∧ t.component? id = some d ∧ S c d := by
  simp only [Survey.component?]
  rcases h.get? id with ⟨hs, ht⟩ | ⟨p, q, hs, ht, hpq, -⟩
  · exact .inl (by simp [hs, ht])
  · exact .inr ⟨p.1, q.1, by simp [hs], by simp [ht], hpq⟩

theorem fields? (h : Survey.Alike S s t) (id : String) :
    (s.fields? id = none ∧ t.fields? id = none) ∨
      ∃ fs gs, s.fields? id = some fs ∧ t.fields? id = some gs ∧ alikeEntries S fs gs := by
  simp only [Survey.fields?]
  rcases h.get? id with ⟨hs, ht⟩ | ⟨p, q, hs, ht, -, hpq⟩
  · exact .inl (by simp [hs, ht])
  · exact .inr ⟨p.2, q.2, by simp [hs], by simp [ht], hpq⟩

theorem table (h : Survey.Alike S s t) (id : String) : s.table id = t.table id := by
  rw [Survey.table, Survey.table, h.tables]

end Survey.Alike

section Children
variable {S : Component → Component → Prop} {cs ds : List Component}

theorem map_id_eq (hS : ∀ c d, S c d → c.id = d.id) (h : Forall₂ S cs ds) :
    cs.map (·.id) = ds.map (·.id) := by
  induction h with
  | nil => rfl
  | cons hcd _ ih => rw [List.map_cons, List.map_cons, hS _ _ hcd, ih]

theorem firstOfEachId_related (hS : ∀ c d, S c d → c.id = d.id) (h : Forall₂ S cs ds)
    (seen : List String) : Forall₂ S (firstOfEachId seen cs) (firstOfEachId seen ds) := by
  induction h generalizing seen with
  | nil => exact .nil
  | @cons c d cs ds hcd _ ih =>
    rw [firstOfEachId, firstOfEachId, hS c d hcd]
    split
    · exact ih seen
    · exact .cons hcd (ih _)

theorem PlacementTable.ofChildren_eq (here : String) (cs : List Component) :
    ofChildren here cs = (cs.map (·.id)).foldl (fun table id =>
      Dict.put table id (if Dict.has table id then .referenced here else .inline here)) [] := by
  rw [ofChildren, List.foldl_map]

end Children

namespace Writer
variable {w : Writer} {S : Component → Component → Prop} {c d : Component}

theorem checkIdentity_simulates (hS : w.Relates S) (h : S c d) :
    Simulates (Survey.Alike S) (fun _ _ => True) (checkIdentity c) (checkIdentity d) := by
  have hid := (hS.frame c d h).id
  refine Simulates.bind Simulates.get fun s t hst => ?_
  rw [← hid]
  rcases hst.component? c.id with ⟨hs, ht⟩ | ⟨a, b, hs, ht, -⟩
  · simp only [hs, ht]
    exact Simulates.pure trivial
  · simp only [hs, ht]
    -- a conflict on either side ends the comparison
    by_cases ha : (!a.isSameObject c && !a.same c) = true
    · intro s t _
      simp only [ha, if_true]
      exact .left c.id _
    · by_cases hb : (!b.isSameObject d && !b.same d) = true
      · intro s t _
        simp only [hb, if_true]
        exact .right _ c.id
      · simp only [ha, hb, Bool.false_eq_true, if_false]
        exact Simulates.pure trivial

theorem noteFields_simulates (hS : w.Relates S) (h : S c d) :
    Simulates (Survey.Alike S) (alikeEntries S) (w.noteFields c) (w.noteFields d) := by
  have hid := (hS.frame c d h).id
  refine Simulates.bind Simulates.get fun s t hst => ?_
  rw [← hid]
  rcases hst.fields? c.id with ⟨hs, ht⟩ | ⟨fs, gs, hs, ht, hfields⟩
  · simp only [hs, ht]
    refine Simulates.bind (Simulates.lift (.matched (hS.fields c d h))) fun fs gs hfields => ?_
    refine Simulates.bind (Simulates.modify fun s t hst => ?_) fun _ _ _ => Simulates.pure hfields
    have hput := Dict.forall₂_put (a := (c, fs)) (b := (d, gs))
      (R := fun p q => S p.1 q.1 ∧ alikeEntries S p.2 q.2) hst.found c.id ⟨h, hfields⟩
    exact ⟨hput, hst.tables⟩
  · simp only [hs, ht]
    exact Simulates.pure hfields

theorem mergeChildren_simulates {here : String} {tableOf : Component → SurveyM PlacementTable}
    (htableOf : ∀ c d, S c d → Simulates (Survey.Alike S) (· = ·) (tableOf c) (tableOf d))
    {cs ds : List Component} (h : Forall₂ S cs ds) (table : PlacementTable) :
    Simulates (Survey.Alike S) (· = ·) (mergeChildren here tableOf cs table)
      (mergeChildren here tableOf ds table) := by
  induction h generalizing table with
  | nil => exact Simulates.pure rfl
  | @cons c d cs ds hcd _ ih =>
    refine Simulates.bind (htableOf c d hcd) fun below below' hbelow => ?_
    subst hbelow
    exact ih _

theorem survey_simulates (hS : w.Relates S) (room : Nat) (h : S c d) :
    Simulates (Survey.Alike S) (· = ·) (w.survey room c) (w.survey room d) := by
  induction room generalizing c d with
  | zero => exact Simulates.throw _
  | succ room ih =>
    have hids : ∀ c d, S c d → c.id = d.id := fun c d hcd => (hS.frame c d hcd).id
    unfold survey
    refine Simulates.bind (checkIdentity_simulates hS h) fun _ _ _ => ?_
    refine Simulates.bind Simulates.get fun s t hst => ?_
    rw [← hids c d h, ← hst.tables]
    cases s.tables.get? c.id with
    | some table => exact Simulates.pure rfl
    | none =>
      refine Simulates.bind (noteFields_simulates hS h) fun fs gs hfields => ?_
      have hheld := alikeEntries_held hfields
      simp only [PlacementTable.ofChildren_eq, map_id_eq hids hheld]
      refine Simulates.bind (mergeChildren_simulates (fun c d hcd => ih hcd)
        (firstOfEachId_related hids hheld []) _) fun table table' htable => ?_
      subst htable
      refine Simulates.bind (Simulates.modify fun s t hst => ?_) fun _ _ _ => Simulates.pure rfl
      exact ⟨hst.found, by rw [hst.tables]⟩

end Writer

/-- Two components whose fields hold components of the same ids. -/
def Survey.SameBelow (p q : Component × Dict Value) : Prop :=
  (heldComponents p.2).map (·.id) = (heldComponents q.2).map (·.id)

/-- Two surveys that found the same ids, below each of them the same ids, and made the same tables. -/
structure Survey.Parallel (s t : Survey) : Prop where
  found : Forall₂ (fun p q => p.1 = q.1 ∧ SameBelow p.2 q.2) s.found t.found
  tables : s.tables = t.tables

namespace Survey
variable {S : Component → Component → Prop} {s t : Survey}

theorem Alike.parallel (hS : ∀ c d, S c d → c.id = d.id) (h : Survey.Alike S s t) :
    s.Parallel t where
  found := h.found.imp fun _ _ hpq => ⟨hpq.1, map_id_eq hS (alikeEntries_held hpq.2.2)⟩
  tables := h.tables

namespace Parallel

theorem component? (h : s.Parallel t) (id : String) :
    (s.component? id).isNone = (t.component? id).isNone := by
  simp only [Survey.component?]
  rcases Dict.forall₂_get? h.found id with ⟨hs, ht⟩ | ⟨p, q, hs, ht, -⟩
  · rw [hs, ht]
  · rw [hs, ht]
    rfl

theorem held (h : s.Parallel t) (id : String) :
    (heldComponents ((s.fields? id).getD [])).map (·.id) =
      (heldComponents ((t.fields? id).getD [])).map (·.id) := by
  simp only [Survey.fields?]
  rcases Dict.forall₂_get? h.found id with ⟨hs, ht⟩ | ⟨p, q, hs, ht, hpq⟩
  · rw [hs, ht]
  · rw [hs, ht]
    exact hpq

theorem reach_eq (h : s.Parallel t) (fuel : Nat) (ids seen : List String) :
    s.reach fuel ids seen = t.reach fuel ids seen := by
  induction fuel generalizing ids seen with
  | zero => cases ids <;> rfl
  | succ fuel ih =>
    cases ids with
    | nil => rfl
    | cons id rest =>
      simp only [reach, h.held id]
      exact ih _ _

theorem force_eq (h : s.Parallel t) (root : String) (listed : List (String × Option String))
    (aliases : Aliases) : s.force root listed aliases = t.force root listed aliases := by
  induction listed generalizing aliases with
  | nil => rfl
  | cons entry rest ih => simp only [force, h.component? entry.1, ih]

/-- The same components go to the sidecar. -/
theorem aliases_eq (h : s.Parallel t) (root : String) (listed : List (String × Option String)) :
    s.aliases root listed = t.aliases root listed := by
  have hbelow : ∀ id, s.below id = t.below id := by
    intro id
    rw [below, below, h.found.length_eq]
    exact h.reach_eq _ _ _
  have hpull : s.pullAlong (s.table root) = t.pullAlong (t.table root) := by
    funext aliases id
    simp only [pullAlong, hbelow, table, h.tables]
  simp only [aliases, h.force_eq, hpull]

end Parallel

theorem aliases_eq (hS : ∀ c d, S c d → c.id = d.id) (h : Survey.Alike S s t) (root : String)
    (listed : List (String × Option String)) : s.aliases root listed = t.aliases root listed :=
  (h.parallel hS).aliases_eq root listed

end Survey
end AgentGraph
