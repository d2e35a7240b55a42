import Wordmill.Text.Numeral

/-!
# Numerals that are read

A numeral is read if its value is within the limit, whatever zeros stand in
front.  A larger value is refused as such: it is never taken for another number.
-/

namespace Wordmill.Text

/-- A numeral and its value; there is a digit at least, and the sign may be left out. -/
inductive Numeral : List Char → Nat → Prop
  | plain {digits : List Char} : digits ≠ [] → (∀ c ∈ digits, c.isDigit = true) →
      Numeral digits (Nat.ofDigitChars 10 digits 0)
  | signed {digits : List Char} : digits ≠ [] → (∀ c ∈ digits, c.isDigit = true) →
      Numeral ('+' :: digits) (Nat.ofDigitChars 10 digits 0)

theorem digitValue?_eq (c : Char) :
    digitValue? c = if c.isDigit = true then some (c.toNat - '0'.toNat) else none := by
  have hdigit : c.isDigit = true ↔ '0' ≤ c ∧ c ≤ '9' := by
    simp [Char.isDigit, Char.le_def, UInt32.le_iff_toNat_le]
  simp only [digitValue?, hdigit]

variable {limit value n : Nat} {digits text : List Char}

/-- More digits never make a smaller value. -/
theorem le_ofDigitChars (value : Nat) (digits : List Char) :
    value ≤ Nat.ofDigitChars 10 digits value := by
  induction digits generalizing value with
  | nil => exact Nat.le_refl value
  | cons c digits ih =>
      rw [Nat.ofDigitChars_cons]
      exact Nat.le_trans (by omega) (ih _)

theorem readDigits_of_digits (hdigits : ∀ c ∈ digits, c.isDigit = true) (hvalue : value ≤ limit) :
    readDigits limit value digits =
      if Nat.ofDigitChars 10 digits value ≤ limit then .ok (Nat.ofDigitChars 10 digits value)
      else .error .tooLarge := by
  induction digits generalizing value with
  | nil => exact (if_pos hvalue).symm
  | cons c digits ih =>
      obtain ⟨hc, hdigits⟩ := List.forall_mem_cons.mp hdigits
      simp only [readDigits, digitValue?_eq, if_pos hc, Nat.ofDigitChars_cons, Nat.mul_comm value]
      split
      · rename_i hnext
        exact ih hdigits hnext
      · rename_i hlarge
        have hle := le_ofDigitChars (10 * value + (c.toNat - '0'.toNat)) digits
        rw [if_neg (by omega)]

private theorem isDigit_of_readDigits (h : readDigits limit value digits = .ok n) :
    ∀ c ∈ digits, c.isDigit = true := by
  induction digits generalizing value with
  | nil => simp
  | cons c digits ih =>
      simp only [readDigits, digitValue?_eq] at h
      split at h
      · contradiction
      · rename_i hdigit
        split at h
        · cases hc : c.isDigit with
          | true => exact List.forall_mem_cons.mpr ⟨hc, ih h⟩
          | false => simp [hc] at hdigit
        · contradiction

/-- A numeral is read, or its value is above the limit. -/
theorem Numeral.readNumeral_eq (h : Numeral text n) (limit : Nat) :
    readNumeral limit text = if n ≤ limit then .ok n else .error .tooLarge := by
  cases h with
  | plain hsome hdigits =>
      rw [← readDigits_of_digits hdigits (Nat.zero_le limit), readNumeral]
      · exact hsome
      · rintro rfl
        exact absurd (hdigits '+' List.mem_cons_self) (by decide)
      · rintro others rfl
        exact absurd (hdigits '+' List.mem_cons_self) (by decide)
  | signed hsome hdigits =>
      rw [← readDigits_of_digits hdigits (Nat.zero_le limit), readNumeral]
      exact hsome

private theorem numeral_of_readNumeral (h : readNumeral limit text = .ok n) : Numeral text n := by
  have hread {digits : List Char} (h : readDigits limit 0 digits = .ok n) :
      (∀ c ∈ digits, c.isDigit = true) ∧ Nat.ofDigitChars 10 digits 0 = n := by
    have hdigits := isDigit_of_readDigits h
    rw [readDigits_of_digits hdigits (Nat.zero_le limit)] at h
    split at h <;> cases h
    exact ⟨hdigits, rfl⟩
  unfold readNumeral at h
  split at h
  · contradiction
  · contradiction
  · rename_i digits hsome
    obtain ⟨hdigits, rfl⟩ := hread h
    exact .signed (fun hnil => hsome (hnil ▸ rfl)) hdigits
  · rename_i digits hsome _ _
    obtain ⟨hdigits, rfl⟩ := hread h
    exact .plain hsome hdigits

theorem readNumeral_eq_ok_iff : readNumeral limit text = .ok n ↔ Numeral text n ∧ n ≤ limit := by
  constructor
  · exact fun h => ⟨numeral_of_readNumeral h, readNumeral_le h⟩
  · rintro ⟨h, hle⟩
    rw [h.readNumeral_eq, if_pos hle]

theorem numeral_toDigits (n : Nat) : Numeral (Nat.toDigits 10 n) n := by
  have hdigits : ∀ c ∈ Nat.toDigits 10 n, c.isDigit = true :=
    fun _ => Nat.isDigit_of_mem_toDigits (by decide) (by decide)
  simpa only [Nat.ofDigitChars_ten_toDigits] using Numeral.plain Nat.toDigits_ne_nil hdigits

end Wordmill.Text
