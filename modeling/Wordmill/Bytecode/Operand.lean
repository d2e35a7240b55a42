import Wordmill.Bytecode.Opcode
import Wordmill.Text.Utf8

/-!
Operands.  Addresses and counts take two bytes, the higher first; a character
takes its UTF-8 bytes.
-/

namespace Wordmill

inductive OperandError where
  | tooLarge (n : Nat)
  | emptyText
  | severalChars
  deriving DecidableEq, Repr

def OperandError.message : OperandError → String
  | .tooLarge _ => "number is too large"
  | .emptyText => "empty string given"
  | .severalChars => "expected one-char string"

namespace Operand

def shortBytes (n : Nat) : UInt8 × UInt8 := (UInt8.ofNat (n / 256), UInt8.ofNat n)

def encodeShort (n : Nat) : Except OperandError (UInt8 × UInt8) :=
  if n ≤ 0xFFFF then .ok (shortBytes n) else .error (.tooLarge n)

def decodeShort (code : Bytecode) (offset : Nat) : Option Nat :=
  match code[offset]?, code[offset + 1]? with
  | some high, some low => some (high.toNat * 256 + low.toNat)
  | _, _ => none

def encodeText (text : List Char) : Except OperandError (List UInt8) :=
  match text with
  | [] => .error .emptyText
  | [c] => .ok (Text.Utf8.encode [c])
  | _ => .error .severalChars

/-- The text at `offset` and the number of bytes it takes; malformed bytes are replaced. -/
def decodeText (code : Bytecode) (offset : Nat) : Option (List Char × Nat) :=
  match code[offset]? with
  | none => none
  | some lead =>
      let length := Text.Utf8.spanLength lead
      if offset + length ≤ code.size then
        some (Text.Utf8.decodeLossy (code.extract offset (offset + length)).toList, length)
      else none

theorem decodeShort_lt {code : Bytecode} {offset n : Nat}
    (h : decodeShort code offset = some n) : n < 65536 ∧ offset + 2 ≤ code.size := by
  unfold decodeShort at h
  split at h
  · rename_i high low _ hlow
    obtain ⟨hbound, -⟩ := Array.getElem?_eq_some_iff.mp hlow
    have := high.toNat_lt
    have := low.toNat_lt
    simp only [Option.some.injEq] at h
    omega
  · contradiction

end Operand

end Wordmill
