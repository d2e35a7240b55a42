/-!
The instruction set.  `put` is followed by the UTF-8 bytes of one character;
`jump`, `pick` and `call` by a two-byte address, `pick` by that of a table.
-/

namespace Wordmill

abbrev Bytecode := Array UInt8

inductive Opcode where
  | halt
  | jump
  | put
  | pick
  | call
  | ret
  deriving DecidableEq, Repr

namespace Opcode

def toByte : Opcode → UInt8
  | .halt => 0
  | .jump => 1
  | .put => 2
  | .pick => 3
  | .call => 4
  | .ret => 5

def ofByte? (byte : UInt8) : Option Opcode :=
  match byte with
  | 0 => some .halt
  | 1 => some .jump
  | 2 => some .put
  | 3 => some .pick
  | 4 => some .call
  | 5 => some .ret
  | _ => none

def name : Opcode → String
  | .halt => "HALT"
  | .jump => "JUMP"
  | .put => "PUT"
  | .pick => "PICK"
  | .call => "CALL"
  | .ret => "RET"

@[simp] theorem ofByte?_toByte (op : Opcode) : ofByte? op.toByte = some op := by
  cases op <;> rfl

theorem toByte_of_ofByte? {byte : UInt8} {op : Opcode} (h : ofByte? byte = some op) :
    op.toByte = byte := by
  unfold ofByte? at h
  split at h <;> simp_all <;> subst h <;> rfl

end Opcode

end Wordmill
