import Wordmill.Bytecode.Operand
import Wordmill.Draw.Basic

/-!
The machine that runs byte code.  A run never fails: whatever stops it, the text
written so far is its result.  `step` executes one instruction and tells why
there is no next one; `runFrom` repeats it a given number of times, and
`stepBudget` is enough for any code whose loops all pass through calls.
-/

namespace Wordmill

namespace Machine

/-- The greatest number of pending returns. -/
def maxCalls : Nat := 256

inductive Halt where
  | halted
  | tooManyCalls
  | outOfBounds
  | unknownOpcode (byte : UInt8)
  | truncatedOperand
  | emptyTable
  | nothingToReturnTo
  deriving DecidableEq, Repr

structure State where
  offset : Nat
  returns : List Nat
  output : String
  deriving DecidableEq, Repr

def initial : State := ⟨0, [], ""⟩

variable {σ : Type} [Draw σ]

/-- Entry zero of a table is the number of its entries. -/
@[inline] def pickFrom (code : Bytecode) (state : State) (table : Nat) (source : σ) :
    Except Halt State × σ :=
  match Operand.decodeShort code table with
  | none => (.error .truncatedOperand, source)
  | some 0 => (.error .emptyTable, source)
  | some count =>
      let (k, source) := Draw.between 1 count source
      match Operand.decodeShort code (table + 2 * k) with
      | none => (.error .truncatedOperand, source)
      | some target => (.ok { state with offset := target }, source)

@[inline] def step (code : Bytecode) (state : State) (source : σ) : Except Halt State × σ :=
  match code[state.offset]? with
  | none => (.error .outOfBounds, source)
  | some byte =>
      let operand := state.offset + 1
      match Opcode.ofByte? byte with
      | none => (.error (.unknownOpcode byte), source)
      | some .halt => (.error .halted, source)
      | some .jump =>
          match Operand.decodeShort code operand with
          | none => (.error .truncatedOperand, source)
          | some target => (.ok { state with offset := target }, source)
      | some .put =>
          match Operand.decodeText code operand with
          | none => (.error .truncatedOperand, source)
          | some (text, length) =>
              let output := text.foldl String.push state.output
              (.ok ⟨operand + length, state.returns, output⟩, source)
      | some .pick =>
          match Operand.decodeShort code operand with
          | none => (.error .truncatedOperand, source)
          | some table => pickFrom code state table source
      | some .call =>
          match Operand.decodeShort code operand with
          | none => (.error .truncatedOperand, source)
          | some target =>
              if state.returns.length < maxCalls then
                (.ok ⟨target, (operand + 2) :: state.returns, state.output⟩, source)
              else (.error .tooManyCalls, source)
      | some .ret =>
          match state.returns with
          | [] => (.error .nothingToReturnTo, source)
          | back :: returns => (.ok ⟨back, returns, state.output⟩, source)

/-- Where a run ended; there is no halt if the steps allowed were used up. -/
structure Run (σ : Type) where
  halt : Option Halt
  state : State
  source : σ
  deriving Repr

def runFrom (code : Bytecode) : Nat → State → σ → Run σ
  | 0, state, source => ⟨none, state, source⟩
  | fuel + 1, state, source =>
      match step code state source with
      | (.error halt, source) => ⟨some halt, state, source⟩
      | (.ok next, source) => runFrom code fuel next source

/-- At each of the levels of calls, fewer instructions than there are bytes. -/
def stepBudget (code : Bytecode) : Nat := Nat.pow (code.size + 1) (maxCalls + 1)

def run (code : Bytecode) (source : σ) : String × σ :=
  let result := runFrom code (stepBudget code) initial source
  (result.state.output, result.source)

end Machine

end Wordmill
