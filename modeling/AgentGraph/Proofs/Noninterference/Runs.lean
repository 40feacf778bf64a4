import AgentGraph.Save.Error
/-!
# Two runs side by side

Two runs agree if they end alike, both well with related results or both with one error, unless one
of them stops at a conflicting id. Agreement goes through a run step by step.
-/
namespace AgentGraph

/-- Two results that are both good and related, or one and the same error. -/
inductive Matched {ε α β : Type} (R : α → β → Prop) : Except ε α → Except ε β → Prop
  | ok {a : α} {b : β} : R a b → Matched R (.ok a) (.ok b)
  | error (e : ε) : Matched R (.error e) (.error e)

/-- Two results of saving match, or one of them is a conflict of ids. -/
inductive Agree {α β : Type} (R : α → β → Prop) : Except SaveError α → Except SaveError β → Prop
  | matched {x : Except SaveError α} {y : Except SaveError β} : Matched R x y → Agree R x y
  | left (id : String) (y : Except SaveError β) : Agree R (.error (.conflictingId id)) y
  | right (x : Except SaveError α) (id : String) : Agree R x (.error (.conflictingId id))

namespace Agree
variable {α β γ δ : Type} {R : α → β → Prop} {Q : γ → δ → Prop}
  {x : Except SaveError α} {y : Except SaveError β}

theorem ok {a : α} {b : β} (h : R a b) : Agree R (.ok a) (.ok b) := .matched (.ok h)

theorem of_eq {y : Except SaveError α} (h : x = y) : Agree (· = ·) x y := by
  subst h
  cases x with
  | error e => exact .matched (.error e)
  | ok a => exact .ok rfl

theorem bind {f : α → Except SaveError γ} {g : β → Except SaveError δ} (h : Agree R x y)
    (hfg : ∀ a b, R a b → Agree Q (f a) (g b)) : Agree Q (x >>= f) (y >>= g) := by
  cases h with
  | left id => exact .left id _
  | right _ id => exact .right _ id
  | matched h =>
    cases h with
    | error e => exact .matched (.error e)
    | ok hab => exact hfg _ _ hab

theorem eq_of_ne {y : Except SaveError α} (h : Agree (· = ·) x y)
    (hx : ∀ id, x ≠ .error (.conflictingId id)) (hy : ∀ id, y ≠ .error (.conflictingId id)) :
    x = y := by
  cases h with
  | left id => exact absurd rfl (hx id)
  | right _ id => exact absurd rfl (hy id)
  | matched h =>
    cases h with
    | error e => rfl
    | ok hab => rw [hab]

end Agree

/-- From related states on, two runs with state agree and end in related states. -/
def Simulates {σ τ α β : Type} (I : σ → τ → Prop) (R : α → β → Prop)
    (m : StateT σ (Except SaveError) α) (n : StateT τ (Except SaveError) β) : Prop :=
  ∀ s t, I s t → Agree (fun p q => R p.1 q.1 ∧ I p.2 q.2) (m s) (n t)

namespace Simulates
variable {σ τ α β γ δ : Type} {I : σ → τ → Prop} {R : α → β → Prop} {Q : γ → δ → Prop}
  {m : StateT σ (Except SaveError) α} {n : StateT τ (Except SaveError) β}

theorem pure {a : α} {b : β} (h : R a b) : Simulates I R (pure a) (pure b) :=
  fun _ _ hst => .ok ⟨h, hst⟩

theorem bind {f : α → StateT σ (Except SaveError) γ} {g : β → StateT τ (Except SaveError) δ}
    (h : Simulates I R m n) (hfg : ∀ a b, R a b → Simulates I Q (f a) (g b)) :
    Simulates I Q (m >>= f) (n >>= g) :=
  fun s t hst => (h s t hst).bind fun p q hpq => hfg p.1 q.1 hpq.1 p.2 q.2 hpq.2

theorem get : Simulates I I MonadState.get MonadState.get := fun _ _ hst => .ok ⟨hst, hst⟩

theorem modify {f : σ → σ} {g : τ → τ} (h : ∀ s t, I s t → I (f s) (g t)) :
    Simulates I (fun _ _ => True) (modify f) (modify g) :=
  fun s t hst => .ok ⟨trivial, h s t hst⟩

theorem throw (e : SaveError) :
    Simulates I R (MonadExcept.throw e) (MonadExcept.throw e) :=
  fun _ _ _ => .matched (.error e)

theorem lift {x : Except SaveError α} {y : Except SaveError β} (h : Agree R x y) :
    Simulates I R (liftM x) (liftM y) :=
  fun _ _ hst => h.bind fun _ _ hab => .ok ⟨hab, hst⟩

end Simulates

/-- A part that is known to end well hands its result on. -/
theorem lift_ok_bind {σ ε α β : Type} (a : α) (f : α → StateT σ (Except ε) β) :
    (liftM (Except.ok a : Except ε α) : StateT σ (Except ε) α) >>= f = f a := rfl

end AgentGraph
