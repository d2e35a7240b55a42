import Mathlib.Data.List.Induction
import Wordmill.Proofs.Json.Scanning

/-!
# Natural numbers and strings that are read

The digits of a natural number give it back, and a double can hold any that the
scanner keeps whole.  A string in quotes gives the characters it stands for.
-/

namespace Wordmill.Json

/-! ## The digits of a natural number -/

theorem allDigits_toDigits (n : Nat) : AllDigits (Nat.toDigits 10 n) :=
  fun _ => Nat.isDigit_of_mem_toDigits (by decide) (by decide)

/-- Only zero is written with a zero in front. -/
theorem toDigits_head {n : Nat} (h : 0 < n) :
    ∃ c digits, Nat.toDigits 10 n = c :: digits ∧ c ≠ '0' := by
  induction n using Nat.strongRecOn with
  | ind n ih =>
      rw [Nat.toDigits_eq_if (by decide)]
      split
      · rename_i hsmall
        have hnonzero : ∀ digit < 10, 0 < digit → Nat.digitChar digit ≠ '0' := by decide
        exact ⟨n.digitChar, [], rfl, hnonzero n hsmall h⟩
      · obtain ⟨c, digits, hdigits, hc⟩ := ih (n / 10) (by omega) (by omega)
        exact ⟨c, digits ++ [(n % 10).digitChar], by rw [hdigits, List.cons_append], hc⟩

theorem isWhole_toDigits (n : Nat) : IsWhole (Nat.toDigits 10 n) := by
  obtain rfl | hpos := Nat.eq_zero_or_pos n
  · exact .zero
  · obtain ⟨c, digits, hdigits, hc⟩ := toDigits_head hpos
    have hall := allDigits_toDigits n
    rw [hdigits] at hall ⊢
    exact .digits (hall c List.mem_cons_self) hc fun d hd => hall d (List.mem_cons_of_mem c hd)

theorem scans_natural (n : Nat) : Scans (Nat.toDigits 10 n) [.number (.ofNat n)] := by
  intro rest hrest
  rw [tokens_whole_append (isWhole_toDigits n), scanNumber_whole (isWhole_toDigits n) hrest]
  rfl

namespace Number

theorem digitsValue_whole_ofNat (n : Nat) : digitsValue (ofNat n).whole = n := by
  have hvalue : Nat.ofDigitChars 10 (Nat.toDigits 10 n) 0 = n :=
    Nat.ofDigitChars_toDigits (by decide) (by decide)
  simpa [Nat.ofDigitChars, digitsValue, ofNat, List.foldl_map, Nat.mul_comm] using hvalue

theorem natural?_ofNat (n : Nat) : (ofNat n).natural? = some n :=
  congrArg some (digitsValue_whole_ofNat n)

/-! ## No double is too small for it -/

private theorem collect_append_singleton (start : Nat) (digits : List Nat) (digit : Nat) :
    collect start (digits ++ [digit]) =
      match collect start digits with
      | (value, taken, left) =>
          if left = 0 ∧ value * 10 + digit ≤ maxSignificand then
            (value * 10 + digit, taken + 1, 0)
          else (value, taken, left + 1) := by
  rw [collect, List.foldl_append]
  rfl

/-- Digits of a value within the limit are all collected. -/
theorem collect_eq {digits : List Nat} (h : digitsValue digits ≤ maxSignificand) :
    collect 0 digits = (digitsValue digits, digits.length, 0) := by
  induction digits using List.reverseRecOn with
  | nil => rfl
  | append_singleton digits digit ih =>
      have hvalue : digitsValue (digits ++ [digit]) = digitsValue digits * 10 + digit := by
        simp [digitsValue]
      rw [hvalue] at h ⊢
      rw [collect_append_singleton, ih (by omega), List.length_append]
      exact if_pos ⟨rfl, h⟩

private theorem scaled_ofNat {n : Nat} (h : n ≤ maxSignificand) : (ofNat n).scaled = (n, 0) := by
  have hwhole := collect_eq (digitsValue_whole_ofNat n ▸ h)
  rw [digitsValue_whole_ofNat] at hwhole
  unfold scaled
  rw [hwhole]
  rfl

private theorem nearestDouble_le {n : Nat} (h : n ≠ 0) : nearestDouble n ≤ 2 * n := by
  let ulp := Nat.pow 2 (n.log2 - 52)
  have hulp : ulp ≤ n :=
    calc ulp ≤ 2 ^ n.log2 := Nat.pow_le_pow_right (by decide) (Nat.sub_le _ _)
      _ ≤ n := Nat.log2_self_le h
  have hquotient : n / ulp * ulp ≤ n := Nat.div_mul_le_self n ulp
  have hnext : (n / ulp + 1) * ulp = n / ulp * ulp + ulp := Nat.succ_mul _ _
  simp only [nearestDouble]
  split
  · change (n / ulp + 1) * ulp ≤ 2 * n
    omega
  · change n / ulp * ulp ≤ 2 * n
    omega

private theorem two_mul_maxSignificand_lt : 2 * maxSignificand < doubleLimit := by decide +kernel

theorem overflows_ofNat {n : Nat} (h : n ≤ maxSignificand) : (ofNat n).overflows = false := by
  unfold overflows
  rw [scaled_ofNat h]
  change (n ≠ 0 && (decide (maxExponent < 0) ||
    decide (doubleLimit ≤ nearestDouble n * nearestDouble 1))) = false
  by_cases hzero : n = 0
  · simp [hzero]
  · have hsmall : nearestDouble n < doubleLimit :=
      calc nearestDouble n ≤ 2 * n := nearestDouble_le hzero
        _ ≤ 2 * maxSignificand := Nat.mul_le_mul_left 2 h
        _ < doubleLimit := two_mul_maxSignificand_lt
    have hone : nearestDouble 1 = 1 := by decide
    simp [hone, hsmall, maxExponent]

end Number

/-! ## Strings -/

theorem isLeading_iff {value : Nat} : isLeading value ↔ 0xD800 ≤ value ∧ value ≤ 0xDBFF := by
  simp [isLeading]

theorem isTrailing_iff {value : Nat} : isTrailing value ↔ 0xDC00 ≤ value ∧ value ≤ 0xDFFF := by
  simp [isTrailing]

theorem toNat_range (c : Char) : c.toNat < 0xD800 ∨ 0xDFFF < c.toNat ∧ c.toNat < 0x110000 :=
  c.valid

/-- No character is a surrogate. -/
theorem not_surrogate (c : Char) : ¬ isLeading c.toNat ∧ ¬ isTrailing c.toNat := by
  have hrange := toNat_range c
  rw [isLeading_iff, isTrailing_iff]
  omega

/-- Two surrogates hold what is above U+FFFF of a character. -/
theorem pairChar_surrogates {c : Char} (h : 0x10000 ≤ c.toNat) :
    pairChar (0xD800 + (c.toNat - 0x10000) / 0x400) (0xDC00 + (c.toNat - 0x10000) % 0x400) = c := by
  have hvalue : 0x10000 + (0xD800 + (c.toNat - 0x10000) / 0x400 - 0xD800) * 0x400 +
      (0xDC00 + (c.toNat - 0x10000) % 0x400 - 0xDC00) = c.toNat := by
    omega
  rw [pairChar, hvalue, Char.ofNat_toNat]

private theorem joinPieces_append {pieces : List Piece} {chars : List Char} (h : Means pieces chars)
    (read : List Char) : joinPieces .complete read pieces = .ok (read.reverse ++ chars) := by
  induction h generalizing read with
  | nil => simp [joinPieces]
  | char _ ih => simp [joinPieces, ih]
  | @codeUnit c _ _ _ _ ih =>
      rw [joinPieces.eq_def]
      simp [not_surrogate c, ih]
  | @surrogates c pieces chars hc _ ih =>
      have hrange := toNat_range c
      have hleading : isLeading (0xD800 + (c.toNat - 0x10000) / 0x400) := by
        rw [isLeading_iff]
        omega
      have hother : ¬ isTrailing (0xD800 + (c.toNat - 0x10000) / 0x400) := by
        rw [isTrailing_iff]
        omega
      have htrailing : isTrailing (0xDC00 + (c.toNat - 0x10000) % 0x400) := by
        rw [isTrailing_iff]
        omega
      rw [joinPieces.eq_def]
      simp [hleading, hother, htrailing, pairChar_surrogates hc, ih]

theorem scans_quotes {text chars : List Char} (h : Quotes text chars) :
    ∃ pieces, Scans text [.text pieces .complete] ∧
      joinPieces .complete [] pieces = .ok chars := by
  obtain @⟨body, chars, pieces, hbody, hpieces⟩ := h
  exact ⟨pieces, scans_string hbody, joinPieces_append hpieces []⟩

end Wordmill.Json
