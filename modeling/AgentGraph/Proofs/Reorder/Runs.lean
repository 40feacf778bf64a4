import AgentGraph.Load.Reader
import AgentGraph.Proofs.Load.Runs
/-!
# Runs that another run repeats

One computation carries another if the other ends well whenever it does, with a related result. Nothing
is said of the other where the first fails: two faults may be met in another order. Carrying goes through
a computation step by step, and through runs that begin in related states.
-/
namespace AgentGraph
variable {ε δ α β γ κ : Type} {R : α → β → Prop} {Q : γ → κ → Prop}

/-- If the first computation ends well, so does the second, with a related result. -/
def Carried (R : α → β → Prop) (x : Except ε α) (y : Except δ β) : Prop :=
  ∀ a, x = .ok a → ∃ b, y = .ok b ∧ R a b

namespace Carried
variable {x : Except ε α} {y : Except δ β}

theorem ok {a : α} {b : β} (h : R a b) : Carried R (.ok a : Except ε α) (.ok b : Except δ β) := by
  rintro _ ⟨⟩
  exact ⟨b, rfl, h⟩

theorem error {e : ε} : Carried R (.error e : Except ε α) y := nofun

theorem bind {f : α → Except ε γ} {g : β → Except δ κ} (h : Carried R x y)
    (k : ∀ a b, R a b → Carried Q (f a) (g b)) : Carried Q (x >>= f) (y >>= g) := by
  intro c hc
  obtain ⟨a, hx, hf⟩ := bind_ok hc
  obtain ⟨b, rfl, hab⟩ := h a hx
  exact k a b hab c hf

theorem mono {R' : α → β → Prop} (h : Carried R x y) (k : ∀ a b, x = .ok a → R a b → R' a b) :
    Carried R' x y := by
  intro a ha
  obtain ⟨b, hb, hab⟩ := h a ha
  exact ⟨b, hb, k a b ha hab⟩

theorem map {f : α → γ} {g : β → κ} (h : Carried R x y) (k : ∀ a b, R a b → Q (f a) (g b)) :
    Carried Q (f <$> x) (g <$> y) := by
  intro c hc
  cases x with
  | error e => cases hc
  | ok a =>
    obtain ⟨b, rfl, hab⟩ := h a rfl
    cases hc
    exact ⟨g b, rfl, k a b hab⟩

theorem mapError {f : ε → γ} {g : δ → κ} (h : Carried R x y) :
    Carried R (x.mapError f) (y.mapError g) := by
  intro a ha
  cases x with
  | error e => cases ha
  | ok a' =>
    obtain ⟨b, rfl, hab⟩ := h a' rfl
    cases ha
    exact ⟨b, rfl, hab⟩

end Carried

/-- From related states on, the second run ends well whenever the first does, with a related result and
in a related state. -/
def Shadows {σ τ : Type} (I : σ → τ → Prop) (R : α → β → Prop) (m : StateT σ (Except ε) α)
    (n : StateT τ (Except ε) β) : Prop :=
  ∀ s t, I s t → Carried (fun p q => R p.1 q.1 ∧ I p.2 q.2) (m s) (n t)

namespace Shadows
variable {σ τ : Type} {I : σ → τ → Prop} {m : StateT σ (Except ε) α} {n : StateT τ (Except ε) β}
  {f : α → StateT σ (Except ε) γ} {g : β → StateT τ (Except ε) κ}

theorem pure {a : α} {b : β} (h : R a b) :
    Shadows I R (Pure.pure a : StateT σ (Except ε) α) (Pure.pure b : StateT τ (Except ε) β) :=
  fun _ _ hst => .ok ⟨h, hst⟩

theorem throw {e : ε} : Shadows I R (MonadExcept.throw e) n := fun _ _ _ => .error

theorem bind (h : Shadows I R m n) (k : ∀ a b, R a b → Shadows I Q (f a) (g b)) :
    Shadows I Q (m >>= f) (n >>= g) :=
  fun s t hst => (h s t hst).bind fun p q hpq => k p.1 q.1 hpq.1 p.2 q.2 hpq.2

theorem lift {x : Except ε α} {y : Except ε β} (h : Carried R x y)
    (k : ∀ a b, R a b → Shadows I Q (f a) (g b)) : Shadows I Q (liftM x >>= f) (liftM y >>= g) := by
  cases x with
  | error e => exact fun _ _ _ => .error
  | ok a =>
    obtain ⟨b, rfl, hab⟩ := h a rfl
    exact k a b hab

/-- Both look at their states. -/
theorem get {f : σ → StateT σ (Except ε) γ} {g : τ → StateT τ (Except ε) κ}
    (h : ∀ s t, I s t → Shadows I Q (f s) (g t)) :
    Shadows I Q (MonadState.get >>= f) (MonadState.get >>= g) := fun s t hst => h s t hst s t hst

theorem modify {f : σ → σ} {g : τ → τ} (h : ∀ s t, I s t → I (f s) (g t)) :
    Shadows I (fun _ _ => True) (modify f : StateT σ (Except ε) PUnit)
      (modify g : StateT τ (Except ε) PUnit) := fun s t hst => .ok ⟨trivial, h s t hst⟩

end Shadows

end AgentGraph
