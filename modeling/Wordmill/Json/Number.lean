/-!
JSON numbers, kept as they are written.  A number is either a plain natural
number or only good for telling whether a double can hold it.
-/

namespace Wordmill.Json

/-- Digits are kept by their values, the first one first. -/
structure Number where
  negative : Bool
  whole : List Nat
  fraction : List Nat
  exponent : Option Int
  deriving DecidableEq, Repr

namespace Number

def ofNat (n : Nat) : Number :=
  ⟨false, (Nat.toDigits 10 n).map fun c => c.toNat - '0'.toNat, [], none⟩

def digitsValue (digits : List Nat) : Nat := digits.foldl (fun value digit => value * 10 + digit) 0

def natural? (n : Number) : Option Nat :=
  if n.negative || !n.fraction.isEmpty || n.exponent.isSome then none
  else some (digitsValue n.whole)

def maxSignificand : Nat := Nat.pow 2 64 - 1

/--
Collect leading digits as long as their value stays within `maxSignificand`;
also the number of digits taken and left out.
-/
def collect (start : Nat) (digits : List Nat) : Nat × Nat × Nat :=
  digits.foldl
    (fun (value, taken, left) digit =>
      if left = 0 ∧ value * 10 + digit ≤ maxSignificand then (value * 10 + digit, taken + 1, 0)
      else (value, taken, left + 1))
    (start, 0, 0)

/-- The significand and the power of ten that scales it. -/
def scaled (n : Number) : Nat × Int :=
  let (whole, _, left) := collect 0 n.whole
  let (significand, places, _) := collect whole n.fraction
  (significand, (left : Int) - places + n.exponent.getD 0)

/-- The nearest number of 53 binary digits, of two equally near ones the even one. -/
def nearestDouble (n : Nat) : Nat :=
  let ulp := Nat.pow 2 (n.log2 - 52)
  let quotient := n / ulp
  let rest := 2 * (n % ulp)
  (if ulp < rest ∨ rest = ulp ∧ quotient % 2 = 1 then quotient + 1 else quotient) * ulp

def maxExponent : Nat := 308

/-- From here on the nearest double is infinite. -/
def doubleLimit : Nat := Nat.pow 2 1024 - Nat.pow 2 970

/-- The product of significand and power, each rounded before, is no double. -/
def overflows (n : Number) : Bool :=
  match n.scaled with
  | (significand, .ofNat exponent) =>
      significand ≠ 0 && (maxExponent < exponent ||
        doubleLimit ≤ nearestDouble significand * nearestDouble (Nat.pow 10 exponent))
  | (_, .negSucc _) => false

end Number

end Wordmill.Json
