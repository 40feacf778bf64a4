import AgentGraph.Proofs.Load.Asking
import AgentGraph.Proofs.Load.Runs
/-!
# Answers that stand for components

Each question of a reading is answered by a component that stands for a given one, or there is no room
for the answer. Then the whole reading ends well with what is made of the answers, or it finds no room:
the checks in front of an answer that fails were passed, since they are passed if the components that
were not reached stand for themselves.
-/
namespace AgentGraph
open List (Forall₂)

/-- A component stands for another one, or it is that component, of which no schema names a property
twice. -/
def OrSelf (R : Component → Component → Prop) (c c' : Component) : Prop :=
  R c c' ∨ c' = c ∧ ∀ p ∈ c.inputs ++ c.outputs, p.schema.NamesOnce

theorem Property.covered_self {ps : List Property} (h : ∀ p ∈ ps, p.schema.NamesOnce) :
    Covered ps ps := by
  intro title p hp
  have hnames := h p (List.mem_of_find?_eq_some hp)
  exact ⟨p, hp, hnames, hnames.sameType_refl⟩

theorem Standing.orSelf {R : Component → Component → Prop} (h : Standing R) :
    Standing (OrSelf R) where
  alike c c' hc := by
    rcases hc with hc | ⟨rfl, -⟩
    · exact h.alike c c' hc
    · exact .refl c'
  outputs c c' hc := by
    rcases hc with hc | ⟨rfl, hnames⟩
    · exact h.outputs c c' hc
    · exact Property.covered_self fun p hp => hnames p (List.mem_append_right _ hp)
  inputs c c' hc := by
    rcases hc with hc | ⟨rfl, hnames⟩
    · exact h.inputs c c' hc
    · exact Property.covered_self fun p hp => hnames p (List.mem_append_left _ hp)

namespace Reader
variable {W : Watch} {R : LoadState → Component → Component → Prop} {reader : Reader} {r : Record}
  {field : String} {values : List Tree} {cs : List Component}
  {questions : List (String × List Tree)} {held : List (List Component)} {s : LoadState}
  {e : LoadError}

/-- The reader answers a value by what stands for a component, from whatever state on. -/
structure Yields (W : Watch) (R : LoadState → Component → Component → Prop) (reader : Reader)
    (r : Record) (field : String) (value : Tree) (c : Component) : Prop where
  names : ∀ p ∈ c.inputs ++ c.outputs, p.schema.NamesOnce
  runs : ∀ s, W.Runs s (reader.componentOf r field value) fun t c' => R t c c'

/-- The components stand for themselves. -/
theorem orSelf_values {S : Component → Component → Prop}
    (h : Forall₂ (reader.Yields W R r field) values cs) : Forall₂ (OrSelf S) cs cs := by
  induction h with
  | nil => exact .nil
  | cons hvalue _ ih => exact .cons (.inr ⟨rfl, hvalue.names⟩) ih

theorem orSelf_questions {S : Component → Component → Prop}
    (h : Forall₂ (fun q cs => Forall₂ (reader.Yields W R r q.1) q.2 cs) questions held) :
    Forall₂ (Forall₂ (OrSelf S)) held held := by
  induction h with
  | nil => exact .nil
  | cons hq _ ih => exact .cons (orSelf_values hq) ih

section
variable (hstays : ∀ s t c c', W.step s t → R s c c' → R t c c')
include hstays

theorem runs_componentsOf (h : Forall₂ (reader.Yields W R r field) values cs) (s : LoadState) :
    W.Runs s (reader.componentsOf r field values) fun t cs' => Forall₂ (R t) cs cs' := by
  induction h generalizing s with
  | nil => exact .pure .nil
  | cons hvalue _ ih =>
    refine (hvalue.runs s).bind fun t c' _ hc => (ih t).bind fun u cs' hstep hcs => ?_
    exact .pure (.cons (hstays t u _ _ hstep hc) hcs)

theorem runs_askFor
    (h : Forall₂ (fun q cs => Forall₂ (reader.Yields W R r q.1) q.2 cs) questions held)
    (s : LoadState) :
    W.Runs s (reader.askFor r questions) fun t answers => Forall₂ (Forall₂ (R t)) held answers := by
  induction h generalizing s with
  | nil => exact .pure .nil
  | cons hq _ ih =>
    refine (runs_componentsOf hstays hq s).bind fun t cs' _ hcs => ?_
    refine (ih t).bind fun u later hstep hlater => .pure (.cons ?_ hlater)
    exact hcs.imp fun c c' hc => hstays t u c c' hstep hc

/-- Where an answer fails, those before it stand for their components. -/
theorem stops_componentsOf (h : Forall₂ (reader.Yields W R r field) values cs) (hs : W.inv s)
    (hrun : reader.componentsOf r field values s = .error e) :
    ∃ t cs', W.step s t ∧ reader.StopsAt r field values cs' s e ∧
      Forall₂ (OrSelf (R t)) cs cs' := by
  induction h generalizing s with
  | nil => cases hrun
  | @cons value c values cs hvalue hrest ih =>
    have hruns := hvalue.runs s hs
    rcases run_bind_error hrun with hfirst | ⟨c', t, hc', hrun⟩
    · exact ⟨s, c :: cs, W.refl s, .inl hfirst,
        .cons (.inr ⟨rfl, hvalue.names⟩) (orSelf_values hrest)⟩
    · rw [hc'] at hruns
      obtain ⟨ht, hst, hcc⟩ := hruns
      rcases run_bind_error hrun with hlater | ⟨_, _, _, hnone⟩
      · obtain ⟨u, cs', htu, hstops, hcs⟩ := ih ht hlater
        exact ⟨u, c' :: cs', W.trans hst htu, .inr ⟨t, hc', hstops⟩,
          .cons (.inl (hstays t u _ _ htu hcc)) hcs⟩
      · cases hnone

theorem stops_askFor
    (h : Forall₂ (fun q cs => Forall₂ (reader.Yields W R r q.1) q.2 cs) questions held)
    (hs : W.inv s) (hrun : reader.askFor r questions s = .error e) :
    ∃ t answers, W.step s t ∧ reader.Stops r questions answers s e ∧
      Forall₂ (Forall₂ (OrSelf (R t))) held answers := by
  induction h generalizing s with
  | nil => cases hrun
  | @cons q cs questions held hq hrest ih =>
    have hruns := runs_componentsOf hstays hq s hs
    rcases run_bind_error hrun with hfirst | ⟨cs', t, hcs', hrun⟩
    · obtain ⟨t, cs', hst, hstops, hcs⟩ := stops_componentsOf hstays hq hs hfirst
      exact ⟨t, cs' :: held, hst, .inl hstops, .cons hcs (orSelf_questions hrest)⟩
    · rw [hcs'] at hruns
      obtain ⟨ht, hst, hcs⟩ := hruns
      rcases run_bind_error hrun with hlater | ⟨_, _, _, hnone⟩
      · obtain ⟨u, answers, htu, hstops, hanswers⟩ := ih ht hlater
        refine ⟨u, cs' :: answers, W.trans hst htu, .inr ⟨t, hcs', hstops⟩, .cons ?_ hanswers⟩
        exact hcs.imp fun c c' hc => .inl (hstays t u c c' htu hc)
      · cases hnone

/-- A reading that makes something of whatever stands for the components makes it, or it finds no
room. -/
theorem runs_of_follows {α : Type} {m : LoadM α} {Q : (Component → Component → Prop) → α → Prop}
    (hstanding : ∀ t, Standing (R t))
    (h : Forall₂ (fun q cs => Forall₂ (reader.Yields W R r q.1) q.2 cs) questions held)
    (hm : ∀ S answers, Standing S → Forall₂ (Forall₂ S) held answers →
      ∃ a, reader.Follows r questions answers m a ∧ Q S a) (s : LoadState) :
    W.Runs s m fun t a => Q (R t) a := by
  intro hs
  have hasked := runs_askFor hstays h s hs
  cases hrun : reader.askFor r questions s with
  | ok result =>
    rw [hrun] at hasked
    obtain ⟨ht, hst, hanswers⟩ := hasked
    obtain ⟨a, hfollows, ha⟩ := hm _ _ (hstanding result.2) hanswers
    rw [hfollows.ok s result.2 hrun]
    exact ⟨ht, hst, ha⟩
  | error e =>
    rw [hrun] at hasked
    obtain ⟨t, answers, -, hstops, hanswers⟩ := stops_askFor hstays h hs hrun
    obtain ⟨a, hfollows, -⟩ := hm _ _ (hstanding t).orSelf hanswers
    rw [hfollows.error s e hstops]
    exact hasked

end
end Reader

end AgentGraph
