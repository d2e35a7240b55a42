/-!
Unsigned decimal numerals: an optional plus sign and one or more ASCII digits,
of any length, whose value is within a limit.
-/

namespace Wordmill.Text

inductive NumeralError where
  | empty
  | invalidDigit
  | tooLarge
  deriving DecidableEq, Repr

def NumeralError.message : NumeralError → String
  | .empty => "cannot parse integer from empty string"
  | .invalidDigit => "invalid digit found in string"
  | .tooLarge => "number too large to fit in target type"

def digitValue? (c : Char) : Option Nat :=
  if '0' ≤ c ∧ c ≤ '9' then some (c.toNat - '0'.toNat) else none

/-- The first digit that is none, or that carries the value above `limit`, decides the error. -/
def readDigits (limit : Nat) : Nat → List Char → Except NumeralError Nat
  | value, [] => .ok value
  | value, c :: digits =>
      match digitValue? c with
      | none => .error .invalidDigit
      | some digit =>
          if value * 10 + digit ≤ limit then readDigits limit (value * 10 + digit) digits
          else .error .tooLarge

def readNumeral (limit : Nat) (text : List Char) : Except NumeralError Nat :=
  match text with
  | [] => .error .empty
  | ['+'] => .error .invalidDigit
  | '+' :: digits => readDigits limit 0 digits
  | digits => readDigits limit 0 digits

theorem readDigits_le {limit value : Nat} {digits : List Char} {n : Nat}
    (hv : value ≤ limit) (h : readDigits limit value digits = .ok n) : n ≤ limit := by
  induction digits generalizing value with
  | nil => simp only [readDigits, Except.ok.injEq] at h; omega
  | cons c digits ih =>
      simp only [readDigits] at h
      split at h
      · contradiction
      · split at h
        · exact ih ‹_› h
        · contradiction

theorem readNumeral_le {limit : Nat} {text : List Char} {n : Nat}
    (h : readNumeral limit text = .ok n) : n ≤ limit := by
  unfold readNumeral at h
  split at h
  · contradiction
  · contradiction
  · exact readDigits_le (Nat.zero_le _) h
  · exact readDigits_le (Nat.zero_le _) h

end Wordmill.Text
