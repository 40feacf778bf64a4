/-!
# Letters and digits

The letters and the digits that count are those of ASCII, in three ranges of code points. A capital
stands 32 places before its small letter, and a change of case leaves all other characters alone.
-/
namespace AgentGraph.Naming
variable {c : Char}

theorem digit_bounds : c.isDigit = true ↔ 48 ≤ c.toNat ∧ c.toNat ≤ 57 := Char.isDigit_iff_toNat

theorem lower_bounds : c.isLower = true ↔ 97 ≤ c.toNat ∧ c.toNat ≤ 122 :=
  Bool.and_eq_true_iff.trans (and_congr decide_eq_true_iff decide_eq_true_iff)

theorem upper_bounds : c.isUpper = true ↔ 65 ≤ c.toNat ∧ c.toNat ≤ 90 := decide_eq_true_iff

theorem alphanumeric_iff :
    c.isAlphanum = true ↔ (c.isUpper = true ∨ c.isLower = true) ∨ c.isDigit = true :=
  Bool.or_eq_true_iff.trans (or_congr_left Bool.or_eq_true_iff)

theorem ne_underscore_of_alphanumeric (h : c.isAlphanum = true) : c ≠ '_' := by
  rintro rfl
  revert h
  decide

/-! The three ranges lie apart. -/

theorem not_isUpper_of_isDigit (h : c.isDigit = true) : c.isUpper = false := by
  rw [← Bool.not_eq_true, upper_bounds]
  rw [digit_bounds] at h
  omega

theorem not_isLower_of_isDigit (h : c.isDigit = true) : c.isLower = false := by
  rw [← Bool.not_eq_true, lower_bounds]
  rw [digit_bounds] at h
  omega

theorem not_isUpper_of_isLower (h : c.isLower = true) : c.isUpper = false := by
  rw [← Bool.not_eq_true, upper_bounds]
  rw [lower_bounds] at h
  omega

theorem not_isLower_of_isUpper (h : c.isUpper = true) : c.isLower = false := by
  rw [← Bool.not_eq_true, lower_bounds]
  rw [upper_bounds] at h
  omega

/-! ## Changes of case -/

theorem toNat_toLower (h : c.isUpper = true) : c.toLower.toNat = c.toNat + 32 := by
  obtain ⟨hfirst, hlast⟩ := upper_bounds.mp h
  have hlower : c.toLower = ⟨c.val + ('a'.val - 'A'.val), _⟩ := dif_pos ⟨hfirst, hlast⟩
  rw [hlower, ← Char.toNat_val, UInt32.toNat_add]
  exact Nat.mod_eq_of_lt (by simp; omega)

theorem toNat_toUpper (h : c.isLower = true) : c.toUpper.toNat = c.toNat - 32 := by
  obtain ⟨hfirst, hlast⟩ := lower_bounds.mp h
  have hupper : c.toUpper = ⟨c.val + ('A'.val - 'a'.val), _⟩ := dif_pos ⟨hfirst, hlast⟩
  rw [hupper, ← Char.toNat_val, UInt32.toNat_add]
  simp
  omega

theorem toLower_of_not_isUpper (h : c.isUpper = false) : c.toLower = c :=
  dif_neg (of_decide_eq_false h)

theorem toUpper_of_not_isLower (h : c.isLower = false) : c.toUpper = c := by
  have hother : ¬ (97 ≤ c.toNat ∧ c.toNat ≤ 122) := by
    rw [← lower_bounds, h]
    exact Bool.false_ne_true
  exact dif_neg hother

/-- The small letter of a capital, and its capital again. -/
theorem toLower_of_isUpper (h : c.isUpper = true) :
    c.toLower.isLower = true ∧ c.toLower.toUpper = c := by
  have hbounds := upper_bounds.mp h
  have hlower : c.toLower.isLower = true := by
    rw [lower_bounds, toNat_toLower h]
    omega
  refine ⟨hlower, Char.toNat_inj.mp ?_⟩
  rw [toNat_toUpper hlower, toNat_toLower h, Nat.add_sub_cancel]

/-- The capital of a small letter, and its small letter again. -/
theorem toUpper_of_isLower (h : c.isLower = true) :
    c.toUpper.isUpper = true ∧ c.toUpper.toLower = c := by
  have hbounds := lower_bounds.mp h
  have hupper : c.toUpper.isUpper = true := by
    rw [upper_bounds, toNat_toUpper h]
    omega
  refine ⟨hupper, Char.toNat_inj.mp ?_⟩
  rw [toNat_toLower hupper, toNat_toUpper h]
  omega

theorem not_isUpper_toLower (c : Char) : c.toLower.isUpper = false := by
  cases h : c.isUpper with
  | true => exact not_isUpper_of_isLower (toLower_of_isUpper h).1
  | false => rw [toLower_of_not_isUpper h, h]

theorem not_isLower_toUpper (c : Char) : c.toUpper.isLower = false := by
  cases h : c.isLower with
  | true => exact not_isLower_of_isUpper (toUpper_of_isLower h).1
  | false => rw [toUpper_of_not_isLower h, h]

theorem eq_underscore_of_toUpper (h : c.toUpper = '_') : c = '_' := by
  cases hlower : c.isLower with
  | true =>
    have hupper := (toUpper_of_isLower hlower).1
    rw [h] at hupper
    cases hupper
  | false => rwa [toUpper_of_not_isLower hlower] at h

end AgentGraph.Naming
