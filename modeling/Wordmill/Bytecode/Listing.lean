import Std.Data.HashSet
import Wordmill.Bytecode.Operand
import Wordmill.Text.Quoted

/-!
Listing byte code.  The code is swept once from its first byte; the address of
every PICK that is met marks the start of a table, and a byte that starts no
complete instruction is shown as such.
-/

namespace Wordmill

namespace Listing

inductive Line where
  | plain (opcode : Opcode)
  | address (opcode : Opcode) (target : Nat)
  | put (text : List Char) (length : Nat)
  | table (count : Nat) (entries : List Nat)
  | byte (byte : UInt8)
  deriving DecidableEq, Repr

def Line.size : Line → Nat
  | .plain _ => 1
  | .address _ _ => 3
  | .put _ length => 1 + length
  | .table _ entries => 2 + 2 * entries.length
  | .byte _ => 1

theorem Line.size_pos (line : Line) : 0 < line.size := by
  cases line <;> simp only [size] <;> omega

/-- A table is shown with as many of its entries as there are bytes for. -/
def tableAt (code : Bytecode) (offset : Nat) (byte : UInt8) : Line :=
  match Operand.decodeShort code offset with
  | none => .byte byte
  | some count =>
      let shown := min count ((code.size - (offset + 2)) / 2)
      .table count <|
        (List.range shown).filterMap fun k => Operand.decodeShort code (offset + 2 + 2 * k)

def instructionAt (code : Bytecode) (offset : Nat) (byte : UInt8) : Line :=
  match Opcode.ofByte? byte with
  | none => .byte byte
  | some .halt => .plain .halt
  | some .ret => .plain .ret
  | some .put =>
      match Operand.decodeText code (offset + 1) with
      | none => .byte byte
      | some (text, length) => .put text length
  | some opcode =>
      match Operand.decodeShort code (offset + 1) with
      | none => .byte byte
      | some target => .address opcode target

/-- A table is read where one is known to start. -/
def lineAt (code : Bytecode) (tables : Std.HashSet Nat) (offset : Nat) (byte : UInt8) : Line :=
  if tables.contains offset then tableAt code offset byte else instructionAt code offset byte

def Line.note (line : Line) (tables : Std.HashSet Nat) : Std.HashSet Nat :=
  match line with
  | .address .pick target => tables.insert target
  | _ => tables

def sweep (code : Bytecode) (offset : Nat) (tables : Std.HashSet Nat)
    (lines : Array (Nat × Line)) : Array (Nat × Line) :=
  if h : offset < code.size then
    let line := lineAt code tables offset code[offset]
    sweep code (offset + line.size) (line.note tables) (lines.push (offset, line))
  else lines
termination_by code.size - offset
decreasing_by
  have := (lineAt code tables offset code[offset]).size_pos
  omega

def lines (code : Bytecode) : List (Nat × Line) := (sweep code 0 ∅ #[]).toList

def renderAddress (target : Nat) : List Char := '@' :: Text.hex 4 target

def renderName (opcode : Opcode) : List Char := opcode.name.toList

def renderColumn (opcode : Opcode) : List Char :=
  renderName opcode ++ List.replicate (4 - opcode.name.length) ' '

def renderEntries : List Nat → List Char
  | [] => []
  | [entry] => renderAddress entry
  | entry :: entries => renderAddress entry ++ ", ".toList ++ renderEntries entries

def Line.render : Line → List Char
  | .plain opcode => renderName opcode
  | .address opcode target => renderColumn opcode ++ ' ' :: renderAddress target
  | .put text _ => renderColumn .put ++ ' ' :: Text.quote text
  | .table count entries =>
      ".table ".toList ++ Nat.toDigits 10 count ++ " -> [".toList ++ renderEntries entries ++ [']']
  | .byte value => ".byte 0x".toList ++ Text.hex 2 value.toNat

def renderLine (offset : Nat) (line : Line) : List Char :=
  Text.hex 4 offset ++ ' ' :: ' ' :: line.render ++ ['\n']

end Listing

def listing (code : Bytecode) : String :=
  (Listing.lines code).foldl
    (fun text entry => text ++ String.ofList (Listing.renderLine entry.1 entry.2)) ""

end Wordmill
