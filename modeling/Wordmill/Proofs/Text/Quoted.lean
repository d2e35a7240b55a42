import Wordmill.Proofs.Text.Lines
import Wordmill.Text.Quoted

/-!
# Numbers and quoted text, read back

A number is read off its digits, whatever else stands around them, and an escape
tells the character that it was made of.
-/

namespace Wordmill.Text

/-! ## Digits -/

theorem hexValue?_digitChar {n : Nat} (h : n < 16) : hexValue? n.digitChar = some n := by
  have hall : ∀ n < 16, hexValue? n.digitChar = some n := by decide
  exact hall n h

variable {base : Nat} {c : Char}

theorem notMem_toDigits (hbase : 1 < base) (hsmall : base ≤ 16) (hc : hexValue? c = none)
    (n : Nat) : c ∉ Nat.toDigits base n := by
  have hdigit {m : Nat} (hm : m < base) : c ≠ m.digitChar := by
    rintro rfl
    rw [hexValue?_digitChar (Nat.lt_of_lt_of_le hm hsmall)] at hc
    contradiction
  induction n using Nat.strongRecOn with
  | ind n ih =>
      rw [Nat.toDigits_eq_if hbase]
      split
      · rename_i hn
        simpa using hdigit hn
      · have hsmaller : n / base < n := Nat.div_lt_self (by omega) hbase
        simp only [List.mem_append, List.mem_singleton, not_or]
        exact ⟨ih _ hsmaller, hdigit (Nat.mod_lt n (by omega))⟩

theorem notMem_hex (hc : hexValue? c = none) (width n : Nat) : c ∉ hex width n := by
  have hzero : c ≠ '0' := by
    rintro rfl
    contradiction
  simp only [hex, List.mem_append, List.mem_replicate, not_or]
  exact ⟨fun h => hzero h.2, notMem_toDigits (by decide) (by decide) hc n⟩

/-! ## Numbers -/

/-- The number that the digits of a text stand for; nothing else in it counts. -/
def readNumber (base : Nat) (text : List Char) : Nat :=
  (text.filterMap hexValue?).foldl (fun n digit => n * base + digit) 0

theorem readNumber_concat {digit : Nat} (front : List Char) (h : hexValue? c = some digit) :
    readNumber base (front ++ [c]) = readNumber base front * base + digit := by
  simp [readNumber, h]

theorem readNumber_append_left {front : List Char} (h : readNumber base front = 0)
    (back : List Char) : readNumber base (front ++ back) = readNumber base back := by
  unfold readNumber at h ⊢
  rw [List.filterMap_append, List.foldl_append, h]

theorem readNumber_append_right {back : List Char} (h : back.filterMap hexValue? = [])
    (front : List Char) : readNumber base (front ++ back) = readNumber base front := by
  unfold readNumber
  rw [List.filterMap_append, h, List.append_nil]

theorem readNumber_toDigits (hbase : 1 < base) (hsmall : base ≤ 16) (n : Nat) :
    readNumber base (Nat.toDigits base n) = n := by
  induction n using Nat.strongRecOn with
  | ind n ih =>
      rw [Nat.toDigits_eq_if hbase]
      split
      · rename_i hn
        simp [readNumber, hexValue?_digitChar (Nat.lt_of_lt_of_le hn hsmall)]
      · have hsmaller : n / base < n := Nat.div_lt_self (by omega) hbase
        have hdigit : n % base < 16 := Nat.lt_of_lt_of_le (Nat.mod_lt n (by omega)) hsmall
        rw [readNumber_concat _ (hexValue?_digitChar hdigit), ih _ hsmaller, Nat.div_add_mod']

private theorem readNumber_zeros (count : Nat) :
    readNumber base (List.replicate count '0') = 0 := by
  induction count with
  | zero => rfl
  | succ count ih =>
      rw [List.replicate_succ', readNumber_concat _ (show hexValue? '0' = some 0 from rfl), ih,
        Nat.zero_mul]

theorem readNumber_hex (width n : Nat) : readNumber 16 (hex width n) = n := by
  rw [hex, readNumber_append_left (readNumber_zeros _), readNumber_toDigits (by decide) (by decide)]

/-- Hexadecimal digits are read whatever stands in front of them, zeros included. -/
theorem readNumber_append_hex (front : List Char) (h : readNumber 16 front = 0) (width n : Nat) :
    readNumber 16 (front ++ hex width n) = n := by
  rw [readNumber_append_left h, readNumber_hex]

/-! ## Quoted text -/

/-- What a letter behind a backslash stands for. -/
def meaning (letter : Char) : Char :=
  match letter with
  | '0' => '\x00'
  | 't' => '\t'
  | 'r' => '\r'
  | 'n' => '\n'
  | c => c

/-- The text up to the closing quote. -/
def unescape (text : List Char) : List Char :=
  match text with
  | [] => []
  | '\\' :: 'u' :: digits =>
      Char.ofNat (readNumber 16 (digits.takeWhile (· ≠ '\x7d'))) ::
        unescape (digits.dropWhile (· ≠ '\x7d')).tail
  | '\\' :: letter :: text => meaning letter :: unescape text
  | '"' :: _ => []
  | c :: text => c :: unescape text
termination_by text.length
decreasing_by
  · have := (digits.dropWhile_sublist (· ≠ '\x7d')).length_le
    simp only [List.length_tail, List.length_cons]
    omega
  all_goals simp only [List.length_cons]; omega

def unquote (text : List Char) : List Char := unescape (text.dropWhile (· ≠ '"')).tail

private theorem unescape_escape (c : Char) (rest : List Char) :
    unescape (escape c ++ rest) = c :: unescape rest := by
  unfold escape
  split
  iterate 6 · simp [unescape, meaning]
  rename_i hquote hbackslash
  split
  · have hdigits : '\x7d' ∉ ['\x7b'] ++ hex 1 c.toNat := by
      simpa using notMem_hex (show hexValue? '\x7d' = none from rfl) 1 c.toNat
    have hback : '\x7d' :: rest = [] ∨ ∃ others, '\x7d' :: rest = '\x7d' :: others :=
      .inr ⟨rest, rfl⟩
    have hescape : ['\\', 'u', '\x7b'] ++ hex 1 c.toNat ++ ['\x7d'] ++ rest =
        '\\' :: 'u' :: (['\x7b'] ++ hex 1 c.toNat ++ '\x7d' :: rest) := by
      simp
    -- the brace in front of the digits is no digit
    rw [hescape, unescape, takeWhile_cut hdigits hback, dropWhile_cut hdigits hback,
      readNumber_append_hex _ rfl, Char.ofNat_toNat, List.tail_cons]
  · rw [List.singleton_append, unescape]
    · exact fun _ h _ => hbackslash h
    · exact fun _ _ h _ => hbackslash h
    · exact hquote

private theorem unescape_flatMap (text rest : List Char) :
    unescape (text.flatMap escape ++ '"' :: rest) = text := by
  induction text with
  | nil => simp [unescape]
  | cons c text ih => rw [List.flatMap_cons, List.append_assoc, unescape_escape, ih]

/-- Quoted text is read back, whatever stands in front of it. -/
theorem unquote_quote {front : List Char} (h : '"' ∉ front) (text : List Char) :
    unquote (front ++ quote text) = text := by
  rw [unquote, quote, List.cons_append, dropWhile_cut h (.inr ⟨_, rfl⟩), List.tail_cons,
    unescape_flatMap]

end Wordmill.Text
