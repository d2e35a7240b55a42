/-!
UTF-8 text.  `spanLength` is the coarse length that a leading byte announces;
`decodeLossy` reads any bytes whatever and puts one U+FFFD in the place of each
longest piece that begins a well-formed sequence without completing it.
-/

namespace Wordmill.Text.Utf8

def replacement : Char := '\uFFFD'

def encode (text : List Char) : List UInt8 := text.flatMap String.utf8EncodeChar

theorem encode_append (front back : List Char) :
    encode (front ++ back) = encode front ++ encode back := by
  simp [encode]

/-- The bytes that follow are not looked at. -/
def spanLength (lead : UInt8) : Nat :=
  if lead ≤ 0x7F then 1 else if lead ≤ 0xDF then 2 else if lead ≤ 0xEF then 3 else 4

/-- A sequence begun: its bits so far, the bytes it still owes, and the range of the next one. -/
structure Begun where
  bits : Nat
  owed : Nat
  low : UInt8
  high : UInt8
  deriving DecidableEq, Repr

/--
The first continuation byte is bounded more narrowly after E0, ED, F0 and F4,
which leaves out overlong forms, surrogates and values above U+10FFFF.
-/
def start (lead : UInt8) : List Char × Option Begun :=
  let n := lead.toNat
  if lead ≤ 0x7F then ([Char.ofNat n], none)
  else if lead ≤ 0xC1 then ([replacement], none)
  else if lead ≤ 0xDF then ([], some ⟨n % 32, 1, 0x80, 0xBF⟩)
  else if lead ≤ 0xEF then
    let low := if lead = 0xE0 then 0xA0 else 0x80
    let high := if lead = 0xED then 0x9F else 0xBF
    ([], some ⟨n % 16, 2, low, high⟩)
  else if lead ≤ 0xF4 then
    let low := if lead = 0xF0 then 0x90 else 0x80
    let high := if lead = 0xF4 then 0x8F else 0xBF
    ([], some ⟨n % 8, 3, low, high⟩)
  else ([replacement], none)

/-- The characters settled by one more byte. -/
def feed (begun : Option Begun) (byte : UInt8) : List Char × Option Begun :=
  match begun with
  | none => start byte
  | some s =>
      if s.low ≤ byte ∧ byte ≤ s.high then
        let bits := s.bits * 64 + byte.toNat % 64
        if s.owed = 1 then ([Char.ofNat bits], none)
        else ([], some ⟨bits, s.owed - 1, 0x80, 0xBF⟩)
      else
        let (chars, begun) := start byte
        (replacement :: chars, begun)

def decodeFrom : Option Begun → List UInt8 → List Char
  | none, [] => []
  | some _, [] => [replacement]
  | begun, byte :: bytes =>
      let (chars, begun) := feed begun byte
      chars ++ decodeFrom begun bytes

def decodeLossy (bytes : List UInt8) : List Char := decodeFrom none bytes

end Wordmill.Text.Utf8
