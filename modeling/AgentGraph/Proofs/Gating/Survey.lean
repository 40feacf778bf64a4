import AgentGraph.Proofs.BuiltinGraph
import AgentGraph.Proofs.Gating.Runs
import AgentGraph.Proofs.Noninterference.Survey
import AgentGraph.Proofs.Placement.Identity
/-!
# Surveys at two releases

At an older release a survey finds the same components under the same ids and makes the same tables, for
the fields that are gated hold no component. What was found under an id is of the type of every
component that a record can be asked for under it.
-/
namespace AgentGraph
open List (Forall₂)

namespace Release
variable {a b c : Release}

theorem atMost_trans (hab : a.atMost b = true) (hbc : b.atMost c = true) : a.atMost c = true := by
  simp only [atMost, decide_eq_true_eq] at *
  omega

end Release

namespace Policy
variable {p : Policy} {older newer : Release} {type field : String}

theorem kindAllowed_mono (hle : older.atMost newer = true) (h : p.kindAllowed type older = true) :
    p.kindAllowed type newer = true := by
  unfold kindAllowed at *
  split
  · rename_i minimum hminimum
    simp only [hminimum] at h
    exact Release.atMost_trans h hle
  · rfl

theorem fieldAllowed_mono (hle : older.atMost newer = true)
    (h : p.fieldAllowed type field older = true) : p.fieldAllowed type field newer = true := by
  unfold fieldAllowed at *
  split
  · rename_i minimum hminimum
    simp only [hminimum] at h
    exact Release.atMost_trans h hle
  · rfl

end Policy

namespace Writer

/-- The same writer at another release. -/
def atRelease (w : Writer) (release : Release) : Writer :=
  { w with target := { w.target with release } }

/-- A set of components of builtin kinds, closed under what its members use, all of which may be written
at an older release already. A handle names one object. -/
structure Spans (w : Writer) (older : Release) (S : Component → Prop) : Prop where
  owned : ∀ type ∈ Builtin.types, w.registry.owner? type = some ⟨Plugin.builtin, true⟩
  policy : w.policy = Policy.builtin
  le : older.atMost w.target.release = true
  closed : ∀ c, S c → ∀ d ∈ c.children, S d
  builtin : ∀ c, S c → c.kind.isBuiltin = true
  allowed : ∀ c, S c → Policy.builtin.kindAllowed c.componentType older = true
  objects : ∀ c d, S c → S d → c.isSameObject d = true → c = d

/-- One component, found with its fields at an older release and at that of the writer. -/
def Trims (w : Writer) (older : Release) (S : Component → Prop) (p q : Component × Dict Value) : Prop :=
  ∃ d, S d ∧ p = (d, (w.atRelease older).shown d) ∧ q = (d, w.shown d)

/-- The same components were found, with the fields that there are at either release. -/
structure Trimmed (w : Writer) (older : Release) (S : Component → Prop) (s t : Survey) : Prop where
  found : Forall₂ (fun p q => p.1 = q.1 ∧ w.Trims older S p.2 q.2) s.found t.found
  tables : s.tables = t.tables

variable {w : Writer} {older : Release} {S : Component → Prop} {c d : Component} {s t : Survey}

namespace Spans
variable (hS : w.Spans older S)
include hS

theorem inFull (hc : S c) : w.InFull c :=
  inFull_of_builtin hS.owned hS.policy (hS.builtin c hc)
    (Policy.kindAllowed_mono hS.le (hS.allowed c hc))

theorem inFull_at (hc : S c) : (w.atRelease older).InFull c :=
  inFull_of_builtin hS.owned hS.policy (hS.builtin c hc) (hS.allowed c hc)

/-- At the older release the fields that are gated are missing, and no others. -/
theorem shown_at (hc : S c) : (w.atRelease older).shown c =
    (w.shown c).filter fun f => Policy.builtin.fieldAllowed c.componentType f.1 older := by
  rw [(hS.inFull_at hc).shown_eq, (hS.inFull hc).shown_eq, List.filter_filter]
  refine List.filter_congr fun f _ => ?_
  have hmono : Policy.builtin.fieldAllowed c.componentType f.1 older = true →
      Policy.builtin.fieldAllowed c.componentType f.1 w.target.release = true :=
    Policy.fieldAllowed_mono hS.le
  simp only [shows, Policy.shows, Writer.atRelease, hS.policy]
  cases hold : Policy.builtin.fieldAllowed c.componentType f.1 older with
  | true => simp [hmono hold]
  | false => simp

theorem held (hc : S c) : heldComponents (w.shown c) = c.children := (hS.inFull hc).children_eq

theorem held_at (hc : S c) : heldComponents ((w.atRelease older).shown c) = c.children :=
  (hS.inFull_at hc).children_eq

end Spans

namespace Trimmed

theorem empty : w.Trimmed older S .empty .empty := ⟨.nil, rfl⟩

theorem get? (h : w.Trimmed older S s t) (id : String) :
    (s.found.get? id = none ∧ t.found.get? id = none) ∨
      ∃ d, S d ∧ s.found.get? id = some (d, (w.atRelease older).shown d) ∧
        t.found.get? id = some (d, w.shown d) := by
  rcases Dict.forall₂_get? h.found id with hnone | ⟨p, q, hs, ht, d, hd, rfl, rfl⟩
  · exact .inl hnone
  · exact .inr ⟨d, hd, hs, ht⟩

theorem component? (h : w.Trimmed older S s t) (id : String) : s.component? id = t.component? id := by
  simp only [Survey.component?]
  rcases h.get? id with ⟨hs, ht⟩ | ⟨d, -, hs, ht⟩
  · rw [hs, ht]
  · rw [hs, ht]
    rfl

theorem parallel (hS : w.Spans older S) (h : w.Trimmed older S s t) : s.Parallel t where
  found := by
    refine h.found.imp ?_
    rintro ⟨x, p⟩ ⟨y, q⟩ ⟨hxy, d, hd, rfl, rfl⟩
    exact ⟨hxy, by rw [Survey.SameBelow, hS.held hd, hS.held_at hd]⟩
  tables := h.tables

end Trimmed

theorem checkIdentity_inStep (c : Component) :
    InStep (w.Trimmed older S) (checkIdentity c) (checkIdentity c) fun _ _ s t =>
      w.Trimmed older S s t := by
  refine InStep.get fun s t hst => ?_
  rw [hst.component? c.id]
  cases t.component? c.id with
  | none => exact .pure (by rintro _ _ ⟨rfl, rfl⟩; exact hst)
  | some seen =>
    simp only
    split
    · exact .throw _
    · exact .pure (by rintro _ _ ⟨rfl, rfl⟩; exact hst)

theorem noteFields_inStep (hS : w.Spans older S) (hc : S c) :
    InStep (w.Trimmed older S) ((w.atRelease older).noteFields c) (w.noteFields c) fun fs gs s t =>
      (heldComponents fs = heldComponents gs ∧ ∀ d ∈ heldComponents gs, S d) ∧
        w.Trimmed older S s t := by
  have hheld {d : Component} (hd : S d) :
      heldComponents ((w.atRelease older).shown d) = heldComponents (w.shown d) ∧
        ∀ e ∈ heldComponents (w.shown d), S e := by
    rw [hS.held hd, hS.held_at hd]
    exact ⟨rfl, hS.closed d hd⟩
  refine InStep.get fun s t hst => ?_
  simp only [Survey.fields?]
  rcases hst.get? c.id with ⟨hs, ht⟩ | ⟨d, hd, hs, ht⟩
  · simp only [hs, ht, Option.map_none, (hS.inFull hc).visibleFields_eq,
      (hS.inFull_at hc).visibleFields_eq, lift_ok_bind]
    refine InStep.modify (J := w.Trimmed older S) ?_ (.pure fun s t hst => ⟨hheld hc, hst⟩)
    rintro _ _ ⟨rfl, rfl⟩
    exact ⟨Dict.forall₂_put hst.found c.id ⟨c, hc, rfl, rfl⟩, hst.tables⟩
  · simp only [hs, ht, Option.map_some]
    exact .pure (by rintro _ _ ⟨rfl, rfl⟩; exact ⟨hheld hd, hst⟩)

theorem mergeChildren_inStep {here : String} {tableOf tableOf' : Component → SurveyM PlacementTable}
    {cs : List Component}
    (htableOf : ∀ c ∈ cs, InStep (w.Trimmed older S) (tableOf c) (tableOf' c) fun p q s t =>
      p = q ∧ w.Trimmed older S s t) (table : PlacementTable) :
    InStep (w.Trimmed older S) (mergeChildren here tableOf cs table)
      (mergeChildren here tableOf' cs table) fun p q s t => p = q ∧ w.Trimmed older S s t := by
  induction cs generalizing table with
  | nil => exact .pure fun s t hst => ⟨rfl, hst⟩
  | cons c rest ih =>
    obtain ⟨hc, hrest⟩ := List.forall_mem_cons.mp htableOf
    refine hc.bind fun below below' => .assume fun hbelow => ?_
    subst hbelow
    exact ih hrest _

/-- The same table is made at either release. -/
theorem survey_inStep (hS : w.Spans older S) (room : Nat) (hc : S c) :
    InStep (w.Trimmed older S) ((w.atRelease older).survey room c) (w.survey room c) fun p q s t =>
      p = q ∧ w.Trimmed older S s t := by
  induction room generalizing c with
  | zero => exact .throw _
  | succ room ih =>
    refine (checkIdentity_inStep c).bind fun _ _ => InStep.get fun s t hst => ?_
    rw [hst.tables]
    cases t.tables.get? c.id with
    | some table => exact .pure (by rintro _ _ ⟨rfl, rfl⟩; exact ⟨rfl, hst⟩)
    | none =>
      have hnote := (noteFields_inStep hS hc).strengthen (J := fun s' t' => s' = s ∧ t' = t)
        (by rintro _ _ ⟨rfl, rfl⟩; exact hst)
      refine hnote.bind fun fs gs => .assume fun ⟨hheld, hkids⟩ => ?_
      simp only [hheld]
      have hbelow : ∀ d ∈ firstOfEachId [] (heldComponents gs), InStep (w.Trimmed older S)
          ((w.atRelease older).survey room d) (w.survey room d) fun p q s t =>
            p = q ∧ w.Trimmed older S s t :=
        fun d hd => ih (hkids d (mem_firstOfEachId hd).1)
      refine (mergeChildren_inStep hbelow _).bind fun table table' => .assume fun htable => ?_
      subst htable
      refine InStep.modify (J := w.Trimmed older S) (fun s t hst => ?_)
        (.pure fun s t hst => ⟨rfl, hst⟩)
      exact ⟨hst.found, by rw [hst.tables]⟩

end Writer

/-- What was found under the id of a component of a set is of its type. -/
def Survey.Vouches (S : Component → Prop) (s : Survey) (c : Component) : Prop :=
  S c ∧ ∃ d fields, s.found.get? c.id = some (d, fields) ∧ d.componentType = c.componentType

namespace Writer

/-- What a survey knows, while the components of some ids are being looked through: what was found, with
its fields, and that what was found for the first component of each id among those of a finished one is
of its type. -/
structure Entered (w : Writer) (S : Component → Prop) (pending : List String) (s : Survey) : Prop where
  found : ∀ x d fields, s.found.get? x = some (d, fields) → d.id = x ∧ S d ∧ fields = w.shown d
  tables : ∀ x table, s.tables.get? x = some table → ∃ p, s.found.get? x = some p
  kids : ∀ x d fields, s.found.get? x = some (d, fields) → x ∈ pending ∨
    ∀ c ∈ firstOfEachId [] (heldComponents fields), s.Vouches S c

variable {w : Writer} {older : Release} {S : Component → Prop} {c d : Component} {s s' : Survey}
  {pending : List String}

theorem Keeps.vouches (h : Keeps s s') (hc : s.Vouches S c) : s'.Vouches S c := by
  obtain ⟨hmem, d, fields, hd, htype⟩ := hc
  exact ⟨hmem, d, fields, h _ _ hd, htype⟩

theorem entered_empty : w.Entered S [] .empty := by
  constructor
  · intro x d fields h
    simp [Survey.empty] at h
  · intro x table h
    simp [Survey.empty] at h
  · intro x d fields h
    simp [Survey.empty] at h

/-- A component that passed is of the type of what was found under its id. -/
theorem vouches_of_passed (hS : w.Spans older S) (hs : w.Entered S pending s) (hc : S c)
    (hid : checkIdentity c s = .ok ((), s)) {p : Component × Dict Value}
    (hp : s.found.get? c.id = some p) : s.Vouches S c := by
  have hcomponent : s.component? c.id = some p.1 := by simp [Survey.component?, hp]
  refine ⟨hc, p.1, p.2, hp, ?_⟩
  rcases (checkIdentity_ok hid).2 p.1 hcomponent with hobject | hsame
  · rw [hS.objects p.1 c (hs.found _ _ _ hp).2.1 hc hobject]
  · exact Component.same_type hsame

theorem noteFields_enters (hS : w.Spans older S) (hs : w.Entered S pending s) (hc : S c)
    (hid : checkIdentity c s = .ok ((), s)) {fields : Dict Value}
    (hrun : w.noteFields c s = .ok (fields, s')) :
    w.Entered S (c.id :: pending) s' ∧ Keeps s s' ∧ s'.Vouches S c ∧
      ∃ d, s'.found.get? c.id = some (d, fields) := by
  rcases noteFields_cases hrun with ⟨hf, rfl⟩ | ⟨hnone, hv, rfl⟩
  · obtain ⟨⟨d, fs⟩, hd, rfl⟩ := Option.map_eq_some_iff.mp hf
    refine ⟨⟨hs.found, hs.tables, fun x d fields hx => ?_⟩, .refl _,
      vouches_of_passed hS hs hc hid hd, d, hd⟩
    exact (hs.kids x d fields hx).imp_left (List.mem_cons_of_mem _)
  · have hkeeps : Keeps s { s with found := s.found.put c.id (c, fields) } := .put hnone (c, fields)
    have hshown : fields = w.shown c := by
      rw [(hS.inFull hc).visibleFields_eq] at hv
      exact (Except.ok.inj hv).symm
    refine ⟨⟨fun x d fs hx => ?_, fun x table hx => ?_, fun x d fs hx => ?_⟩, hkeeps,
      ⟨hc, c, fields, Dict.get?_put_self _ _ _, rfl⟩, c, Dict.get?_put_self _ _ _⟩
    · rw [Dict.get?_put] at hx
      split at hx
      · cases hx
        exact ⟨‹_›, hc, hshown⟩
      · exact hs.found x d fs hx
    · obtain ⟨p, hp⟩ := hs.tables x table hx
      exact ⟨p, hkeeps x p hp⟩
    · rw [Dict.get?_put] at hx
      split at hx
      · rename_i hx'
        exact .inl (hx' ▸ List.mem_cons_self)
      · refine (hs.kids x d fs hx).imp (List.mem_cons_of_mem _) fun hkids e he => ?_
        exact hkeeps.vouches (hkids e he)

theorem mergeChildren_enters {here : String} {tableOf : Component → SurveyM PlacementTable}
    {cs : List Component}
    (htableOf : ∀ c ∈ cs, ∀ s table s', w.Entered S pending s → tableOf c s = .ok (table, s') →
      w.Entered S pending s' ∧ Keeps s s' ∧ s'.Vouches S c)
    {start table : PlacementTable} (hs : w.Entered S pending s)
    (hrun : mergeChildren here tableOf cs start s = .ok (table, s')) :
    w.Entered S pending s' ∧ Keeps s s' ∧ ∀ c ∈ cs, s'.Vouches S c := by
  induction cs generalizing start s with
  | nil =>
    obtain ⟨rfl, rfl⟩ := run_pure_ok hrun
    exact ⟨hs, .refl _, by simp⟩
  | cons c rest ih =>
    obtain ⟨below, t, hc, hrest⟩ := run_bind_ok hrun
    obtain ⟨ht, hkeeps, hvouches⟩ := htableOf c List.mem_cons_self _ _ _ hs hc
    obtain ⟨hs', hkeeps', hall⟩ := ih (fun d hd => htableOf d (List.mem_cons_of_mem _ hd)) ht hrest
    exact ⟨hs', hkeeps.trans hkeeps', List.forall_mem_cons.mpr ⟨hkeeps'.vouches hvouches, hall⟩⟩

/-- A survey that ends leaves nothing pending of what it began. -/
theorem survey_enters (hS : w.Spans older S) {room : Nat} (hc : S c) (hs : w.Entered S pending s)
    {table : PlacementTable} (hrun : w.survey room c s = .ok (table, s')) :
    w.Entered S pending s' ∧ Keeps s s' ∧ s'.Vouches S c := by
  induction room generalizing c s table s' pending with
  | zero => exact (run_throw_ok hrun).elim
  | succ room ih =>
    obtain ⟨hid, ⟨hk, rfl⟩ | ⟨-, fields, t, u, hf, hm, rfl⟩⟩ := survey_cases hrun
    · obtain ⟨p, hp⟩ := hs.tables _ _ hk
      exact ⟨hs, .refl _, vouches_of_passed hS hs hc hid hp⟩
    · obtain ⟨ht, hkeeps, hvouches, d, hd⟩ := noteFields_enters hS hs hc hid hf
      obtain ⟨-, hmem, hshown⟩ := ht.found _ _ _ hd
      have hkid : ∀ e ∈ firstOfEachId [] (heldComponents fields), S e := by
        intro e he
        refine hS.closed d hmem e ?_
        rw [← hS.held hmem, ← hshown]
        exact (mem_firstOfEachId he).1
      obtain ⟨hu, hkeeps', hfirst⟩ :=
        mergeChildren_enters (fun e he s table s' hs hrun => ih (hkid e he) hs hrun) ht hm
      refine ⟨⟨hu.found, fun x table' hx => ?_, fun x e fs hx => ?_⟩, hkeeps.trans hkeeps',
        hkeeps'.vouches hvouches⟩
      · rw [Dict.get?_put] at hx
        split at hx
        · rename_i hx'
          exact ⟨_, hx' ▸ hkeeps' _ _ hd⟩
        · exact hu.tables x table' hx
      · by_cases hx' : x = c.id
        · subst hx'
          obtain ⟨rfl, rfl⟩ := Prod.mk.inj (Option.some.inj ((hkeeps' _ _ hd).symm.trans hx))
          exact .inr hfirst
        · refine (hu.kids x e fs hx).imp_left fun hpending => ?_
          exact (List.mem_cons.mp hpending).resolve_left hx'

end Writer
end AgentGraph
