import ModulePins.Text.Blank

/-!
# Letters and digits

Where the letters and digits of ASCII lie among all characters. None of them is blank.
-/

namespace ModulePins.Text

variable {c : Char}

theorem isLower_iff : c.isLower = true ↔ 'a' ≤ c ∧ c ≤ 'z' := by
  change (decide ('a'.val ≤ c.val) && decide (c.val ≤ 'z'.val)) = true ↔ 'a' ≤ c ∧ c ≤ 'z'
  rw [Bool.and_eq_true, decide_eq_true_iff, decide_eq_true_iff, Char.le_def, Char.le_def]

theorem isDigit_iff : c.isDigit = true ↔ '0' ≤ c ∧ c ≤ '9' := by
  change (decide ('0'.val ≤ c.val) && decide (c.val ≤ '9'.val)) = true ↔ '0' ≤ c ∧ c ≤ '9'
  rw [Bool.and_eq_true, decide_eq_true_iff, decide_eq_true_iff, Char.le_def, Char.le_def]

theorem isDigit_range (h : c.isDigit = true) : 0x30 ≤ c.toNat ∧ c.toNat ≤ 0x39 :=
  isDigit_iff.mp h

theorem isLower_range (h : c.isLower = true) : 0x61 ≤ c.toNat ∧ c.toNat ≤ 0x7A :=
  isLower_iff.mp h

theorem isUpper_range (h : c.isUpper = true) : 0x41 ≤ c.toNat ∧ c.toNat ≤ 0x5A := by
  have hletter : decide (0x41 ≤ c.toNat ∧ c.toNat ≤ 0x5A) = true := h
  simpa using hletter

theorem isAlpha_range (h : c.isAlpha = true) :
    (0x41 ≤ c.toNat ∧ c.toNat ≤ 0x5A) ∨ (0x61 ≤ c.toNat ∧ c.toNat ≤ 0x7A) := by
  have hletter : (c.isUpper || c.isLower) = true := h
  rw [Bool.or_eq_true] at hletter
  exact hletter.imp isUpper_range isLower_range

theorem toNat_of_isAlphanum (h : c.isAlphanum = true) : 0x30 ≤ c.toNat ∧ c.toNat ≤ 0x7A := by
  have hcases : (c.isAlpha || c.isDigit) = true := h
  rw [Bool.or_eq_true] at hcases
  rcases hcases with hletter | hdigit
  · have hrange := isAlpha_range hletter
    omega
  · have hrange := isDigit_range hdigit
    omega

theorem isBlank_of_isAlphanum (h : c.isAlphanum = true) : isBlank c = false := by
  have hrange := toNat_of_isAlphanum h
  simp [isBlank, blankRanges]
  omega

end ModulePins.Text
