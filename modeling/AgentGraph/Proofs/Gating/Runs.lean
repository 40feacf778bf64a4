import AgentGraph.Proofs.Noninterference.Runs
/-!
# Two runs in step

Two runs keep step if, from related states on, both end well with related results and in related states,
or both fail with one error. What is related may grow from step to step, so a relation before and one
after are given.
-/
namespace AgentGraph

namespace Matched
variable {ε α β γ δ : Type} {R R' : α → β → Prop} {Q : γ → δ → Prop} {x : Except ε α}
  {y : Except ε β}

theorem mono (h : Matched R x y) (k : ∀ a b, R a b → R' a b) : Matched R' x y := by
  cases h with
  | error e => exact .error e
  | ok hab => exact .ok (k _ _ hab)

theorem bind {f : α → Except ε γ} {g : β → Except ε δ} (h : Matched R x y)
    (hfg : ∀ a b, R a b → Matched Q (f a) (g b)) : Matched Q (x >>= f) (y >>= g) := by
  cases h with
  | error e => exact .error e
  | ok hab => exact hfg _ _ hab

/-- What the second one ended with may be used for what follows. -/
theorem result (h : Matched R x y) : Matched (fun a b => R a b ∧ y = .ok b) x y := by
  cases h with
  | error e => exact .error e
  | ok hab => exact .ok ⟨hab, rfl⟩

theorem map_eq {f : β → α} (h : Matched (fun a b => a = f b) x y) : x = y.map f := by
  cases h with
  | error e => rfl
  | ok hab => exact congrArg _ hab

end Matched

/-- From related states on, two runs keep step. -/
def InStep {σ τ ε α β : Type} (I : σ → τ → Prop) (m : StateT σ (Except ε) α)
    (n : StateT τ (Except ε) β) (Q : α → β → σ → τ → Prop) : Prop :=
  ∀ s t, I s t → Matched (fun p q => Q p.1 q.1 p.2 q.2) (m s) (n t)

namespace InStep
variable {σ τ ε α β γ δ : Type} {I J : σ → τ → Prop} {P P' : α → β → σ → τ → Prop}
  {Q : γ → δ → σ → τ → Prop} {m : StateT σ (Except ε) α} {n : StateT τ (Except ε) β}

theorem pure {a : α} {b : β} (h : ∀ s t, I s t → P a b s t) :
    InStep I (Pure.pure a : StateT σ (Except ε) α) (Pure.pure b) P := fun s t hst => .ok (h s t hst)

theorem throw (e : ε) :
    InStep I (MonadExcept.throw e : StateT σ (Except ε) α) (MonadExcept.throw e) P :=
  fun _ _ _ => .error e

theorem bind {f : α → StateT σ (Except ε) γ} {g : β → StateT τ (Except ε) δ} (h : InStep I m n P)
    (hfg : ∀ a b, InStep (P a b) (f a) (g b) Q) : InStep I (m >>= f) (n >>= g) Q :=
  fun s t hst => (h s t hst).bind fun p q hpq => hfg p.1 q.1 p.2 q.2 hpq

theorem mono (h : InStep I m n P) (k : ∀ a b s t, P a b s t → P' a b s t) : InStep I m n P' :=
  fun s t hst => (h s t hst).mono fun p q hpq => k p.1 q.1 p.2 q.2 hpq

theorem strengthen (h : InStep I m n P) (k : ∀ s t, J s t → I s t) : InStep J m n P :=
  fun s t hst => h s t (k s t hst)

/-- A fact that does not depend on the states may be used for what follows. -/
theorem assume {p : Prop} (h : p → InStep I m n P) : InStep (fun s t => p ∧ I s t) m n P :=
  fun s t hst => h hst.1 s t hst.2

/-- After both states were looked at, they are those. -/
theorem get {f : σ → StateT σ (Except ε) γ} {g : τ → StateT τ (Except ε) δ}
    (h : ∀ s t, I s t → InStep (fun s' t' => s' = s ∧ t' = t) (f s) (g t) Q) :
    InStep I (MonadState.get >>= f) (MonadState.get >>= g) Q :=
  fun s t hst => h s t hst s t ⟨rfl, rfl⟩

theorem modify {f : σ → σ} {g : τ → τ} {k : PUnit → StateT σ (Except ε) γ}
    {k' : PUnit → StateT τ (Except ε) δ} (hfg : ∀ s t, I s t → J (f s) (g t))
    (h : InStep J (k ⟨⟩) (k' ⟨⟩) Q) : InStep I (modify f >>= k) (modify g >>= k') Q :=
  fun s t hst => h (f s) (g t) (hfg s t hst)

theorem lift {x : Except ε α} {y : Except ε β} {R : α → β → Prop} (h : Matched R x y) :
    InStep I (liftM x : StateT σ (Except ε) α) (liftM y) fun a b s t => R a b ∧ I s t :=
  fun _ _ hst => h.bind fun _ _ hab => .ok ⟨hab, hst⟩

end InStep
end AgentGraph
