import AgentGraph.Dict
/-!
# Runs that can fail

What is known of the parts of a computation that ended well, and a triple for runs with a state: from a
state that passes a test a run ends as it should, or it fails in a way that is admitted.
-/
namespace AgentGraph
variable {ε σ α β : Type} {s t : σ} {a b : α}

theorem exists_of_isOk {x : Except ε α} (h : x.isOk = true) : ∃ a, x = .ok a := by
  cases x with
  | error e => cases h
  | ok a => exact ⟨a, rfl⟩

theorem exists_of_any {x : Except ε α} {test : α → Bool} (h : x.toOption.any test = true) :
    ∃ a, x = .ok a ∧ test a = true := by
  cases x with
  | error e => cases h
  | ok a => exact ⟨a, rfl, h⟩

theorem error_of_map {x : Except ε α} {f : α → β} {e : ε} (h : x.map f = .error e) :
    x = .error e := by
  cases x with
  | error other => rw [Except.error.inj h]
  | ok a => cases h

theorem bind_ok {x : Except ε α} {f : α → Except ε β} {b : β} (h : (x >>= f) = .ok b) :
    ∃ a, x = .ok a ∧ f a = .ok b := by
  cases x with
  | error e => cases h
  | ok a => exact ⟨a, rfl, h⟩

theorem bind_error {x : Except ε α} {f : α → Except ε β} {e : ε} (h : (x >>= f) = .error e) :
    x = .error e ∨ ∃ a, x = .ok a ∧ f a = .error e := by
  cases x with
  | error other => exact .inl (by rw [Except.error.inj h])
  | ok a => exact .inr ⟨a, rfl, h⟩

@[simp] theorem exists_bind_ok {x : Except ε α} {f : α → Except ε β} :
    (∃ b, (x >>= f) = .ok b) ↔ ∃ a, x = .ok a ∧ ∃ b, f a = .ok b := by
  constructor
  · rintro ⟨b, h⟩
    obtain ⟨a, rfl, h⟩ := bind_ok h
    exact ⟨a, rfl, b, h⟩
  · rintro ⟨a, rfl, b, h⟩
    exact ⟨b, h⟩

@[simp] theorem exists_map_ok {x : Except ε α} {f : α → β} :
    (∃ b, f <$> x = .ok b) ↔ ∃ a, x = .ok a := by
  constructor
  · rintro ⟨b, h⟩
    cases x with
    | error e => cases h
    | ok a => exact ⟨a, rfl⟩
  · rintro ⟨a, rfl⟩
    exact ⟨f a, rfl⟩

theorem run_bind_ok {m : StateT σ (Except ε) α} {f : α → StateT σ (Except ε) β} {b : β}
    (h : (m >>= f) s = .ok (b, t)) : ∃ a u, m s = .ok (a, u) ∧ f a u = .ok (b, t) := by
  obtain ⟨⟨a, u⟩, hm, hf⟩ := bind_ok (x := m s) (f := fun p => f p.1 p.2) h
  exact ⟨a, u, hm, hf⟩

theorem run_bind_error {m : StateT σ (Except ε) α} {f : α → StateT σ (Except ε) β} {e : ε}
    (h : (m >>= f) s = .error e) :
    m s = .error e ∨ ∃ a u, m s = .ok (a, u) ∧ f a u = .error e := by
  rcases bind_error (x := m s) (f := fun p => f p.1 p.2) h with hm | ⟨⟨a, u⟩, hm, hf⟩
  · exact .inl hm
  · exact .inr ⟨a, u, hm, hf⟩

theorem run_bind_of_ok {m : StateT σ (Except ε) α} {f : α → StateT σ (Except ε) β}
    (h : m s = .ok (a, t)) : (m >>= f) s = f a t := by
  simp only [bind, StateT.bind, h, Except.bind]

theorem run_bind_of_error {m : StateT σ (Except ε) α} {f : α → StateT σ (Except ε) β} {e : ε}
    (h : m s = .error e) : (m >>= f) s = .error e := by
  simp only [bind, StateT.bind, h, Except.bind]

theorem run_pure_ok (h : (pure a : StateT σ (Except ε) α) s = .ok (b, t)) : b = a ∧ t = s := by
  cases h
  exact ⟨rfl, rfl⟩

theorem run_get_bind_ok {f : σ → StateT σ (Except ε) α}
    (h : (get >>= f) s = .ok (a, t)) : f s s = .ok (a, t) := h

theorem run_modify_bind_ok {g : σ → σ} {f : PUnit → StateT σ (Except ε) α}
    (h : (modify g >>= f) s = .ok (a, t)) : f ⟨⟩ (g s) = .ok (a, t) := h

theorem run_lift_bind_ok {x : Except ε α} {f : α → StateT σ (Except ε) β} {b : β}
    (h : (liftM x >>= f) s = .ok (b, t)) : ∃ a, x = .ok a ∧ f a s = .ok (b, t) := by
  cases x with
  | error e => cases h
  | ok a => exact ⟨a, rfl, h⟩

theorem run_lift_ok {x : Except ε α} (h : (liftM x : StateT σ (Except ε) α) s = .ok (a, t)) :
    x = .ok a ∧ t = s := by
  cases x with
  | error e => cases h
  | ok b =>
    cases h
    exact ⟨rfl, rfl⟩

theorem run_throw_ok {e : ε} (h : (throw e : StateT σ (Except ε) α) s = .ok (a, t)) : False := by
  cases h

/-- A computation gives what fits, or it fails in an admitted way. -/
def Gives (F : ε → Prop) (x : Except ε α) (P : α → Prop) : Prop :=
  match x with
  | .ok a => P a
  | .error e => F e

namespace Gives
variable {F : ε → Prop} {x : Except ε α} {f : α → Except ε β} {P : α → Prop} {Q : β → Prop}

theorem ok (h : P a) : Gives F (.ok a) P := h

theorem error {e : ε} (h : F e) : Gives F (.error e : Except ε α) P := h

theorem bind (h : Gives F x P) (k : ∀ a, P a → Gives F (f a) Q) : Gives F (x >>= f) Q := by
  cases x with
  | error e => exact h
  | ok a => exact k a h

theorem mono {P' : α → Prop} (h : Gives F x P) (k : ∀ a, P a → P' a) : Gives F x P' := by
  cases x with
  | error e => exact h
  | ok a => exact k a h

theorem of_ok (h : Gives F x P) (hx : x = .ok a) : P a := by
  rw [hx] at h
  exact h

theorem of_error {e : ε} (h : Gives F x P) (hx : x = .error e) : F e := by
  rw [hx] at h
  exact h

end Gives

variable {I J : σ → Prop} {F : ε → Prop} {m : StateT σ (Except ε) α}
  {f : α → StateT σ (Except ε) β}

/-- From a state that passes a test, a run ends with a result and in a state that fit, or it fails in
an admitted way. -/
def Ends (I : σ → Prop) (F : ε → Prop) (m : StateT σ (Except ε) α) (Q : α → σ → Prop) : Prop :=
  ∀ s, I s → match m s with
    | .ok (a, t) => Q a t
    | .error e => F e

/-- A run that keeps a property of the state. -/
abbrev Preserves (I : σ → Prop) (F : ε → Prop) (m : StateT σ (Except ε) α) (Q : α → Prop) : Prop :=
  Ends I F m fun a s => Q a ∧ I s

namespace Ends
variable {P : α → σ → Prop} {Q : β → σ → Prop}

theorem pure (h : ∀ s, I s → P a s) : Ends I F (Pure.pure a) P := fun s hs => h s hs

theorem throw {e : ε} (h : F e) : Ends I F (MonadExcept.throw e) P := fun _ _ => h

theorem bind (h : Ends I F m P) (k : ∀ a, Ends (P a) F (f a) Q) : Ends I F (m >>= f) Q := by
  intro s hs
  have hm := h s hs
  simp only [Bind.bind, StateT.bind, Except.bind]
  split at hm
  · rename_i a t hrun
    rw [hrun]
    exact k a t hm
  · rename_i e hrun
    rw [hrun]
    exact hm

theorem mono {P' : α → σ → Prop} (h : Ends I F m P) (k : ∀ a s, P a s → P' a s) :
    Ends I F m P' := by
  intro s hs
  have hm := h s hs
  split at hm
  · exact k _ _ hm
  · exact hm

theorem strengthen (h : Ends I F m P) (k : ∀ s, J s → I s) : Ends J F m P :=
  fun s hs => h s (k s hs)

theorem lift {x : Except ε α} (hx : ∀ e, x = .error e → F e)
    (h : ∀ a, x = .ok a → Ends I F (f a) Q) : Ends I F (liftM x >>= f) Q := by
  cases x with
  | error e => exact fun _ _ => hx e rfl
  | ok a => exact h a rfl

theorem lift_gives {x : Except ε α} {R : α → Prop} (hx : Gives F x R)
    (h : ∀ a, R a → Ends I F (f a) Q) : Ends I F (liftM x >>= f) Q :=
  lift (fun _ he => hx.of_error he) fun a ha => h a (hx.of_ok ha)

/-- A run from one state. -/
theorem run {s : σ} (h : Ends I F m P) (hs : I s) :
    Gives F (m.run s) fun p => P p.1 p.2 := by
  have hm := h s hs
  unfold Gives
  simp only [StateT.run]
  split at hm
  · rename_i hrun
    rw [hrun]
    exact hm
  · rename_i hrun
    rw [hrun]
    exact hm

/-- After the state was looked at, it is that one. -/
theorem get {f : σ → StateT σ (Except ε) β} (h : ∀ s, I s → Ends (· = s) F (f s) Q) :
    Ends I F (MonadState.get >>= f) Q := fun s hs => h s hs s rfl

theorem modify {g : σ → σ} {f : PUnit → StateT σ (Except ε) β} (hg : ∀ s, I s → J (g s))
    (h : Ends J F (f ⟨⟩) Q) : Ends I F (modify g >>= f) Q := fun s hs => h (g s) (hg s hs)

end Ends

namespace Preserves
variable {P : α → Prop} {Q : β → Prop}

theorem pure (h : P a) : Preserves I F (Pure.pure a) P := fun _ hs => ⟨h, hs⟩

theorem bind (h : Preserves I F m P) (k : ∀ a, P a → Preserves I F (f a) Q) :
    Preserves I F (m >>= f) Q :=
  Ends.bind h fun a s hs => k a hs.1 s hs.2

theorem mono {P' : α → Prop} (h : Preserves I F m P) (k : ∀ a, P a → P' a) : Preserves I F m P' :=
  Ends.mono h fun a _ hs => ⟨k a hs.1, hs.2⟩

theorem get {f : σ → StateT σ (Except ε) β} (h : ∀ s, I s → Preserves I F (f s) Q) :
    Preserves I F (MonadState.get >>= f) Q := fun s hs => h s hs s hs

/-! Where a run may fail in any way, only what it gives counts. -/

theorem throw (e : ε) : Preserves I (fun _ : ε => True) (MonadExcept.throw e) P :=
  fun _ _ => trivial

theorem lift {x : Except ε α} (h : ∀ a, x = .ok a → Preserves I (fun _ : ε => True) (f a) Q) :
    Preserves I (fun _ : ε => True) (liftM x >>= f) Q := Ends.lift (fun _ _ => trivial) h

theorem lifted {x : Except ε α} (h : ∀ a, x = .ok a → P a) :
    Preserves I (fun _ : ε => True) (liftM x) P := by
  cases x with
  | error e => exact throw e
  | ok a => exact pure (h a rfl)

end Preserves

end AgentGraph
