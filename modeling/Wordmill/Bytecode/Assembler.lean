import Wordmill.Bytecode.Operand
import Wordmill.Dictionary
import Wordmill.Pattern.Basic

/-!
Assembling a pattern.  Code is written front to back; an address that is not
known yet is written as zero and its place noted.  The result is laid out as

    primary code, HALT, subroutine, …, subroutine, pick table, …, pick table

with one subroutine for each definition that is reached and one pick table for
each choice or optional part.
-/

namespace Wordmill

inductive CompileError where
  | invalidPattern
  | operand (error : OperandError)
  deriving DecidableEq, Repr

def CompileError.message : CompileError → String
  | .invalidPattern => "invalid AST"
  | .operand error => error.message

/--
Code under construction.  `calls` holds the offset of each CALL with the name
it calls, and `picks` that of each PICK with the starts of its alternatives,
both in ascending order of the offsets; `starts` tells where the subroutines
written so far begin.
-/
structure Assembly where
  code : Bytecode
  calls : Array (Nat × Char)
  picks : Array (Nat × List Nat)
  starts : Dictionary Nat
  deriving Repr

namespace Assembly

def empty : Assembly := ⟨#[], #[], #[], []⟩

def here (a : Assembly) : Nat := a.code.size

def op (a : Assembly) (opcode : Opcode) : Assembly :=
  { a with code := a.code.push opcode.toByte }

def openCode (code : Bytecode) (opcode : Opcode) : Bytecode :=
  ((code.push opcode.toByte).push 0).push 0

def jump (a : Assembly) : Assembly :=
  { a with code := openCode a.code .jump }

def call (a : Assembly) (name : Char) : Assembly :=
  match a with
  | ⟨code, calls, picks, starts⟩ =>
      let calls := calls.push (code.size, name)
      ⟨openCode code .call, calls, picks, starts⟩

/-- A PICK whose alternatives are noted once they are known. -/
def pick (a : Assembly) : Assembly :=
  match a with
  | ⟨code, calls, picks, starts⟩ =>
      let picks := picks.push (code.size, [])
      ⟨openCode code .pick, calls, picks, starts⟩

def put (a : Assembly) (c : Char) : Assembly :=
  { a with code := a.code.push Opcode.put.toByte ++ (String.utf8EncodeChar c).toArray }

/-- Note the alternatives of the PICK that was written as number `index`. -/
def setPick (a : Assembly) (index offset : Nat) (starts : List Nat) : Assembly :=
  { a with picks := a.picks.setIfInBounds index (offset, starts) }

def mark (a : Assembly) (name : Char) : Assembly :=
  match a with
  | ⟨code, calls, picks, starts⟩ => ⟨code, calls, picks, starts.insert name code.size⟩

def char (definitions : Dictionary Pattern) (a : Assembly) (c : Char) : Assembly :=
  if definitions.hasName c then a.call c else a.put c

@[simp] theorem here_op (a : Assembly) (opcode : Opcode) : (a.op opcode).here = a.here + 1 := by
  simp [here, op]

@[simp] theorem here_jump (a : Assembly) : a.jump.here = a.here + 3 := by
  simp [here, jump, openCode]

@[simp] theorem here_call (a : Assembly) (name : Char) : (a.call name).here = a.here + 3 := by
  simp [here, call, openCode]

@[simp] theorem here_pick (a : Assembly) : a.pick.here = a.here + 3 := by
  simp [here, pick, openCode]

@[simp] theorem here_put (a : Assembly) (c : Char) : (a.put c).here = a.here + 1 + c.utf8Size := by
  simp [here, put]
  omega

@[simp] theorem here_setPick (a : Assembly) (index offset : Nat) (starts : List Nat) :
    (a.setPick index offset starts).here = a.here := rfl

@[simp] theorem here_mark (a : Assembly) (name : Char) : (a.mark name).here = a.here := rfl

end Assembly

/-- Write `target` as the address of the instruction at `offset`. -/
def patch (code : Bytecode) (offset target : Nat) : Except CompileError Bytecode :=
  match Operand.encodeShort target with
  | .error e => .error (.operand e)
  | .ok (high, low) =>
      .ok ((code.setIfInBounds (offset + 1) high).setIfInBounds (offset + 2) low)

theorem size_patch {code patched : Bytecode} {offset target : Nat}
    (h : patch code offset target = .ok patched) : patched.size = code.size := by
  unfold patch at h
  split at h
  · contradiction
  · simp only [Except.ok.injEq] at h
    simp [← h]

def patchAll (target : Nat) : List Nat → Bytecode → Except CompileError Bytecode
  | [], code => .ok code
  | offset :: offsets, code =>
      match patch code offset target with
      | .error e => .error e
      | .ok code => patchAll target offsets code

/-- Point the jumps behind the last alternative and note the alternatives of the PICK. -/
def closeChoice (index offset : Nat)
    (emitted : Except CompileError (Assembly × List Nat × List Nat)) :
    Except CompileError Assembly :=
  match emitted with
  | .error e => .error e
  | .ok (⟨code, calls, picks, begun⟩, starts, jumps) =>
      match patchAll code.size jumps code with
      | .error e => .error e
      | .ok code => .ok (Assembly.setPick ⟨code, calls, picks, begun⟩ index offset starts)

/-- The body starts behind the three bytes of the PICK; the other way leads past it. -/
def closeOptional (index offset : Nat) (emitted : Except CompileError Assembly) :
    Except CompileError Assembly :=
  match emitted with
  | .error e => .error e
  | .ok a =>
      let past := a.here
      .ok (a.setPick index offset [offset + 3, past])

namespace Pattern

variable (definitions : Dictionary Pattern)

mutual

def emit (pattern : Pattern) (a : Assembly) : Except CompileError Assembly :=
  if pattern.isEmpty then .error .invalidPattern
  else match pattern with
    | .sequence parts => emitEach parts a
    | .text chars => .ok (chars.foldl (Assembly.char definitions) a)
    | .quoted chars => .ok (chars.foldl Assembly.put a)
    | .choice alternatives =>
        closeChoice a.picks.size a.here
          (emitAlternatives alternatives a.pick [a.here + 3] [])
    | .optional body => closeOptional a.picks.size a.here (emit body a.pick)

def emitEach (parts : List Pattern) (a : Assembly) : Except CompileError Assembly :=
  match parts with
  | [] => .ok a
  | part :: parts =>
      match emit part a with
      | .error e => .error e
      | .ok b => emitEach parts b

/--
Every alternative but the last one ends with a jump.  The starts of the
alternatives and the offsets of the jumps are collected newest first, and the
start of the one in front is known already.
-/
def emitAlternatives (alternatives : List Pattern) (a : Assembly) (starts jumps : List Nat) :
    Except CompileError (Assembly × List Nat × List Nat) :=
  match alternatives with
  | [] => .ok (a, starts.reverse, jumps.reverse)
  | alternative :: others =>
      match emit alternative a with
      | .error e => .error e
      | .ok b =>
          if others.isEmpty then .ok (b, starts.reverse, jumps.reverse)
          else
            let offset := b.here
            let next := b.jump
            emitAlternatives others next (next.here :: starts) (offset :: jumps)

end

end Pattern

/--
Go through the calls in the order they were written, and append a subroutine for
each name that is called for the first time.  The calls it makes come last.
-/
def placeSubroutines (definitions unplaced : Dictionary Pattern) (index : Nat) (a : Assembly) :
    Except CompileError Assembly :=
  match _hcall : a.calls[index]? with
  | none => .ok a
  | some (_, name) =>
      match _hbody : unplaced.find? name with
      | none => placeSubroutines definitions unplaced (index + 1) a
      | some body =>
          match body.emit definitions (a.mark name) with
          | .error e => .error e
          | .ok b =>
              placeSubroutines definitions (unplaced.erase name) (index + 1) (b.op .ret)
termination_by (unplaced.length, a.calls.size - index)
decreasing_by
  · have := (Array.getElem?_eq_some_iff.mp _hcall).1
    exact Prod.Lex.right _ (by omega)
  · exact Prod.Lex.left _ _ (Dictionary.length_erase_lt _hbody)

def patchCalls (starts : Dictionary Nat) :
    List (Nat × Char) → Bytecode → Except CompileError Bytecode
  | [], code => .ok code
  | (offset, name) :: calls, code =>
      match starts.find? name with
      | none => .error .invalidPattern
      | some start =>
          match patch code offset start with
          | .error e => .error e
          | .ok code => patchCalls starts calls code

def appendShorts : List Nat → Bytecode → Except CompileError Bytecode
  | [], code => .ok code
  | n :: ns, code =>
      match Operand.encodeShort n with
      | .error e => .error (.operand e)
      | .ok (high, low) => appendShorts ns ((code.push high).push low)

/-- A table holds the number of its entries and then the entries. -/
def appendTables : List (Nat × List Nat) → Bytecode → Except CompileError Bytecode
  | [], code => .ok code
  | (offset, starts) :: picks, code =>
      match patch code offset code.size with
      | .error e => .error e
      | .ok code =>
          match appendShorts (starts.length :: starts) code with
          | .error e => .error e
          | .ok code => appendTables picks code

/-- The code of `pattern` and of every definition that it reaches. -/
def compile (pattern : Pattern) (definitions : Dictionary Pattern) :
    Except CompileError Bytecode :=
  match pattern.emit definitions .empty with
  | .error e => .error e
  | .ok a =>
      match placeSubroutines definitions definitions 0 (a.op .halt) with
      | .error e => .error e
      | .ok ⟨code, calls, picks, starts⟩ =>
          match patchCalls starts calls.toList code with
          | .error e => .error e
          | .ok code => appendTables picks.toList code

end Wordmill
