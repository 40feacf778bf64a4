import AgentGraph.Load
import AgentGraph.Proofs.Graph
import AgentGraph.Proofs.Run
/-!
# The objects that were built

While a document is loaded the objects built so far are kept in mind. Each id has one of them, each
handle names one, and an id that has one is resolved, though perhaps to another object. A run that ends
well adds objects, of ids that can be told beforehand or of ids that were just made up.
-/
namespace AgentGraph

theorem toList_pushn (s : String) (c : Char) (n : Nat) :
    (s.pushn c n).toList = s.toList ++ List.replicate n c := by
  rw [String.pushn_eq_repeat_push]
  induction n with
  | zero => simp [Nat.repeat]
  | succ n ih => rw [Nat.repeat, String.toList_push, ih, List.append_assoc, List.replicate_succ']

namespace Supply

/-- The number of a made-up id can be read off it. -/
theorem ofDigitChars_idOf (n : Nat) :
    Nat.ofDigitChars 10 ((idOf n).toList.drop 3) 0 = n := by
  have hdrop : (idOf n).toList.drop 3 =
      List.replicate (23 - (toString n).length) '0' ++ Nat.toDigits 10 n := by
    simp [idOf, toList_pushn, Nat.toList_repr]
  rw [hdrop, Nat.ofDigitChars_append, Nat.ofDigitChars_replicate_zero, Nat.mul_zero,
    Nat.ofDigitChars_ten_toDigits]

theorem idOf_inj {n m : Nat} (h : idOf n = idOf m) : n = m := by
  rw [← ofDigitChars_idOf n, h, ofDigitChars_idOf m]

theorem length_idOf (n : Nat) : 26 ≤ (idOf n).length := by
  have hlabel : "01K".length = 3 := by decide
  have hdigits : (Nat.toDigits 10 n).length = n.repr.length := by
    rw [← Nat.toList_repr, String.length_toList]
  rw [← String.length_toList]
  simp only [idOf, String.toList_append, toList_pushn, Nat.toString_eq_repr, List.length_append,
    List.length_replicate, Nat.toList_repr, String.length_toList, String.length_empty]
  omega

end Supply

namespace Load

/-- The objects built so far, in a state of loading; no id was made up before a number. -/
structure Stock (first : Nat) (U : Component → Prop) (s : LoadState) : Prop where
  supply : first ≤ s.supply.nextId
  closed : ∀ c, U c → ∀ d ∈ c.children, U d
  built : ∀ key c, s.resolved? key = some c → U c
  known : ∀ c, U c → s.resolved? c.id ≠ none
  unique : ∀ c d, U c → U d → c.id = d.id → c = d
  handles : ∀ c, U c → c.handle < s.supply.nextHandle
  objects : ∀ c d, U c → U d → c.handle = d.handle → c = d

/-- Objects stay, and new ones have ids that pass a test or were made up since. -/
structure Grows (A : String → Prop) (U V : Component → Prop) (s t : LoadState) : Prop where
  kept : ∀ c, U c → V c
  supply : s.supply.nextId ≤ t.supply.nextId
  added : ∀ c, V c → U c ∨ A c.id ∨ ∃ n, s.supply.nextId ≤ n ∧ c.id = Supply.idOf n

namespace Grows
variable {A B : String → Prop} {U V W : Component → Prop} {s t u : LoadState}

theorem refl (A : String → Prop) (U : Component → Prop) (s : LoadState) : Grows A U U s s :=
  ⟨fun _ h => h, Nat.le_refl _, fun _ h => .inl h⟩

theorem trans (h : Grows A U V s t) (k : Grows A V W t u) : Grows A U W s u where
  kept c hc := k.kept c (h.kept c hc)
  supply := Nat.le_trans h.supply k.supply
  added c hc := by
    rcases k.added c hc with hc | hc | ⟨n, hn, hid⟩
    · exact h.added c hc
    · exact .inr (.inl hc)
    · exact .inr (.inr ⟨n, Nat.le_trans h.supply hn, hid⟩)

theorem mono (h : Grows A U V s t) (hAB : ∀ x, A x → B x) : Grows B U V s t :=
  ⟨h.kept, h.supply, fun c hc => (h.added c hc).imp_right (Or.imp_left (hAB c.id))⟩

end Grows

variable {α β : Type} {first : Nat} {A B : String → Prop} {U V : Component → Prop}
  {s t : LoadState} {m : LoadM α} {f : α → LoadM β} {P : (Component → Prop) → α → Prop}
  {Q : (Component → Prop) → β → Prop}

/-- A run that ends well, from a state on with some objects, adds objects and gives a result that fits
the objects there are then. -/
def Gains (first : Nat) (A : String → Prop) (U : Component → Prop) (s : LoadState) (m : LoadM α)
    (Q : (Component → Prop) → α → Prop) : Prop :=
  Stock first U s → ∀ a t, m s = .ok (a, t) →
    ∃ V, Stock first V t ∧ Grows A U V s t ∧ Q V a

namespace Gains

theorem pure {a : α} (h : P U a) : Gains first A U s (Pure.pure a) P := by
  intro hs b t hrun
  obtain ⟨rfl, rfl⟩ := run_pure_ok hrun
  exact ⟨U, hs, .refl A U t, h⟩

theorem bind (h : Gains first A U s m P)
    (k : ∀ V t a, Grows A U V s t → P V a → Gains first A V t (f a) Q) :
    Gains first A U s (m >>= f) Q := by
  intro hs b u hrun
  obtain ⟨a, t, hm, hf⟩ := run_bind_ok hrun
  obtain ⟨V, hV, hUV, ha⟩ := h hs a t hm
  obtain ⟨W, hW, hVW, hb⟩ := k V t a hUV ha hV b u hf
  exact ⟨W, hW, hUV.trans hVW, hb⟩

theorem lift {x : Except LoadError α} (h : ∀ a, x = .ok a → Gains first A U s (f a) Q) :
    Gains first A U s (liftM x >>= f) Q := by
  intro hs b t hrun
  obtain ⟨a, hx, hf⟩ := run_lift_bind_ok hrun
  exact h a hx hs b t hf

theorem throw (e : LoadError) : Gains first A U s (MonadExcept.throw e) P :=
  fun _ _ _ hrun => (run_throw_ok hrun).elim

theorem get {f : LoadState → LoadM β} (h : Gains first A U s (f s) Q) :
    Gains first A U s (MonadState.get >>= f) Q := h

theorem mono {P' : (Component → Prop) → α → Prop} (h : Gains first A U s m P)
    (hAB : ∀ x, A x → B x) (hP : ∀ V a, P V a → P' V a) : Gains first B U s m P' := by
  intro hs a t hrun
  obtain ⟨V, hV, hUV, ha⟩ := h hs a t hrun
  exact ⟨V, hV, hUV.mono hAB, hP V a ha⟩

end Gains

theorem resolved?_put (s : LoadState) (supply : Supply) (key other : String) (r : Resolution) :
    LoadState.resolved? ⟨s.resolution.put key r, supply⟩ other =
      if key = other then
        match r with
        | .resolved c => some c
        | .inProgress => none
      else s.resolved? other := by
  simp only [LoadState.resolved?, Dict.get?_put]
  by_cases h : key = other
  · rw [if_pos h, if_pos h]
    cases r <;> rfl
  · rw [if_neg h, if_neg h]

namespace Stock
variable {c : Component} {key : String}

theorem begun (h : Stock first U s) (hnone : s.resolved? key = none) :
    Stock first U { s with resolution := s.resolution.put key .inProgress } := by
  refine { h with built := fun other d hd => ?_, known := fun d hd => ?_ }
  · rw [resolved?_put] at hd
    split at hd
    · cases hd
    · exact h.built other d hd
  · rw [resolved?_put, if_neg]
    · exact h.known d hd
    · rintro rfl
      exact h.known d hd hnone

theorem noted (h : Stock first U s) (hc : U c) (key : String) :
    Stock first U { s with resolution := s.resolution.put key (.resolved c) } := by
  refine { h with built := fun other d hd => ?_, known := fun d hd => ?_ }
  · rw [resolved?_put] at hd
    split at hd
    · cases hd
      exact hc
    · exact h.built other d hd
  · rw [resolved?_put]
    split
    · simp
    · exact h.known d hd

theorem added {id name : String} {description : Option String} {metadata : Dict Tree} {kind : Kind}
    (h : Stock first U s) (hid : ∀ d, U d → d.id ≠ id)
    (hkind : ∀ d ∈ heldComponents kind.fields, U d) :
    Stock first
      (fun c => U c ∨ c = .mk s.supply.nextHandle id name description metadata kind)
      { resolution := s.resolution.put id
          (.resolved (.mk s.supply.nextHandle id name description metadata kind))
        supply := { s.supply with nextHandle := s.supply.nextHandle + 1 } } := by
  constructor
  · exact h.supply
  · rintro c (hc | rfl) d hd
    · exact .inl (h.closed c hc d hd)
    · exact .inl (hkind d hd)
  · intro key c hc
    rw [resolved?_put] at hc
    split at hc
    · cases hc
      exact .inr rfl
    · exact .inl (h.built key c hc)
  · intro c hc
    rw [resolved?_put]
    split
    · simp
    · rename_i hne
      rcases hc with hc | rfl
      · exact h.known c hc
      · exact absurd rfl hne
  · rintro c d (hc | rfl) (hd | rfl) hcd
    · exact h.unique c d hc hd hcd
    · exact absurd hcd (hid c hc)
    · exact absurd hcd.symm (hid d hd)
    · rfl
  · rintro c (hc | rfl)
    · exact Nat.lt_succ_of_lt (h.handles c hc)
    · exact Nat.lt_succ_self _
  · rintro c d (hc | rfl) (hd | rfl) hcd
    · exact h.objects c d hc hd hcd
    · exact absurd hcd (Nat.ne_of_lt (h.handles c hc))
    · exact absurd hcd.symm (Nat.ne_of_lt (h.handles d hd))
    · rfl

theorem skip (h : Stock first U s) (n : Nat) :
    Stock first U { s with supply := { s.supply with nextId := s.supply.nextId + n } } :=
  ⟨Nat.le_add_right_of_le h.supply, h.closed, h.built, h.known, h.unique, h.handles, h.objects⟩

theorem mem_of_reaches (h : Stock first U s) {d : Component} (hc : U c)
    (hd : Component.Reaches Component.children c d) : U d := by
  obtain ⟨i, p⟩ := hd
  induction p with
  | here => exact hc
  | step hkid _ ih => exact ih (h.closed _ hc _ hkid)

end Stock
end Load
end AgentGraph
