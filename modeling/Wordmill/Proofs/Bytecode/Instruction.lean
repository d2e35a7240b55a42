import Wordmill.Bytecode.Assembler
import Wordmill.Proofs.Dictionary

/-!
# Instructions with known sizes

A pattern is turned into a list of instructions from the sizes alone: every
offset below is computed before any byte exists.  Only the start of a subroutine
and the address of a pick table are left symbolic, as the name that is called
and as the alternatives that are picked from.
-/

namespace Wordmill

inductive Instruction where
  | halt
  | ret
  | put (c : Char)
  | jump (target : Nat)
  | call (name : Char)
  | pick (starts : List Nat)
  deriving DecidableEq, Repr

namespace Instruction

def size : Instruction → Nat
  | .halt | .ret => 1
  | .put c => 1 + c.utf8Size
  | .jump _ | .call _ | .pick _ => 3

/-- The bytes of a table: the number of its entries and then the entries. -/
def tableSize : Instruction → Nat
  | .pick starts => 2 + 2 * starts.length
  | _ => 0

def withAddress (opcode : Opcode) (target : Nat) : List UInt8 :=
  [opcode.toByte, (Operand.shortBytes target).1, (Operand.shortBytes target).2]

/-- `startOf` tells where subroutines begin, and `table` is the table of a pick. -/
def bytes (startOf : Char → Nat) (table : Nat) : Instruction → List UInt8
  | .halt => [Opcode.halt.toByte]
  | .ret => [Opcode.ret.toByte]
  | .put c => Opcode.put.toByte :: String.utf8EncodeChar c
  | .jump target => withAddress .jump target
  | .call name => withAddress .call (startOf name)
  | .pick _ => withAddress .pick table

@[simp] theorem length_bytes (startOf : Char → Nat) (table : Nat) (instruction : Instruction) :
    (instruction.bytes startOf table).length = instruction.size := by
  cases instruction <;> simp [bytes, size, withAddress, Nat.add_comm]

theorem size_pos (instruction : Instruction) : 0 < instruction.size := by
  cases instruction <;> simp only [size] <;> omega

def span : List Instruction → Nat
  | [] => 0
  | instruction :: instructions => instruction.size + span instructions

@[simp] theorem span_nil : span [] = 0 := rfl

@[simp] theorem span_cons (instruction : Instruction) (instructions : List Instruction) :
    span (instruction :: instructions) = instruction.size + span instructions := rfl

@[simp] theorem span_append (front back : List Instruction) :
    span (front ++ back) = span front + span back := by
  induction front with
  | nil => simp
  | cons instruction front ih => simp [ih, Nat.add_assoc]

theorem length_le_span (instructions : List Instruction) :
    instructions.length ≤ span instructions := by
  induction instructions with
  | nil => exact Nat.le_refl 0
  | cons instruction instructions ih =>
      have := size_pos instruction
      rw [List.length_cons, span_cons]
      omega

@[simp] theorem length_flatMap_bytes (startOf : Char → Nat) (table : Nat)
    (instructions : List Instruction) :
    (instructions.flatMap (bytes startOf table)).length = span instructions := by
  induction instructions with
  | nil => rfl
  | cons instruction instructions ih =>
      rw [List.flatMap_cons, List.length_append, length_bytes, ih, span_cons]

/-- Each instruction with its offset, the first one at `offset`. -/
def placed : Nat → List Instruction → List (Nat × Instruction)
  | _, [] => []
  | offset, instruction :: instructions =>
      (offset, instruction) :: placed (offset + instruction.size) instructions

theorem placed_append (offset : Nat) (front back : List Instruction) :
    placed offset (front ++ back) = placed offset front ++ placed (offset + span front) back := by
  induction front generalizing offset with
  | nil => rfl
  | cons instruction front ih => simp [placed, ih, Nat.add_assoc]

@[simp] theorem map_snd_placed (offset : Nat) (instructions : List Instruction) :
    (placed offset instructions).map (·.2) = instructions := by
  induction instructions generalizing offset with
  | nil => rfl
  | cons instruction instructions ih => simp [placed, ih]

theorem mem_of_mem_placed {offset : Nat} {instructions : List Instruction}
    {site : Nat × Instruction} (h : site ∈ placed offset instructions) :
    site.2 ∈ instructions := by
  rw [← map_snd_placed offset instructions]
  exact List.mem_map_of_mem h

theorem exists_mem_placed {instructions : List Instruction} {instruction : Instruction}
    (offset : Nat) (h : instruction ∈ instructions) :
    ∃ place, (place, instruction) ∈ placed offset instructions := by
  rw [← map_snd_placed offset instructions] at h
  obtain ⟨⟨place, found⟩, hmem, rfl⟩ := List.mem_map.mp h
  exact ⟨place, hmem⟩

theorem le_of_mem_placed {offset : Nat} {instructions : List Instruction}
    {site : Nat × Instruction} (h : site ∈ placed offset instructions) :
    offset ≤ site.1 ∧ site.1 + site.2.size ≤ offset + span instructions := by
  induction instructions generalizing offset with
  | nil => simp [placed] at h
  | cons instruction instructions ih =>
      simp only [placed, List.mem_cons] at h
      rcases h with rfl | h
      · simp
      · have := ih h
        simp only [span_cons]
        omega

def callAt : Nat × Instruction → Option (Nat × Char)
  | (offset, .call name) => some (offset, name)
  | _ => none

/-- The site of a pick, with the starts of its alternatives. -/
def pickAt : Nat × Instruction → Option (Nat × List Nat)
  | (offset, .pick starts) => some (offset, starts)
  | _ => none

/-- The calls of a list, in ascending order of their offsets. -/
def calls (offset : Nat) (instructions : List Instruction) : List (Nat × Char) :=
  (placed offset instructions).filterMap callAt

def picks (offset : Nat) (instructions : List Instruction) : List (Nat × List Nat) :=
  (placed offset instructions).filterMap pickAt

theorem mem_calls_iff {offset place : Nat} {name : Char} {instructions : List Instruction} :
    (place, name) ∈ calls offset instructions ↔
      (place, .call name) ∈ placed offset instructions := by
  constructor
  · intro h
    obtain ⟨⟨found, instruction⟩, hmem, hcall⟩ := List.mem_filterMap.mp h
    cases instruction <;> simp_all [callAt]
  · intro h
    exact List.mem_filterMap.mpr ⟨_, h, rfl⟩

theorem mem_picks_iff {offset place : Nat} {starts : List Nat}
    {instructions : List Instruction} :
    (place, starts) ∈ picks offset instructions ↔
      (place, .pick starts) ∈ placed offset instructions := by
  constructor
  · intro h
    obtain ⟨⟨found, instruction⟩, hmem, hpick⟩ := List.mem_filterMap.mp h
    cases instruction <;> simp_all [pickAt]
  · intro h
    exact List.mem_filterMap.mpr ⟨_, h, rfl⟩

@[simp] theorem calls_nil (offset : Nat) : calls offset [] = [] := rfl

@[simp] theorem picks_nil (offset : Nat) : picks offset [] = [] := rfl

@[simp] theorem calls_cons (offset : Nat) (instruction : Instruction)
    (instructions : List Instruction) :
    calls offset (instruction :: instructions) =
      (callAt (offset, instruction)).toList ++ calls (offset + instruction.size) instructions := by
  simp only [calls, placed]
  cases h : callAt (offset, instruction) <;> simp [h]

@[simp] theorem picks_cons (offset : Nat) (instruction : Instruction)
    (instructions : List Instruction) :
    picks offset (instruction :: instructions) =
      (pickAt (offset, instruction)).toList ++ picks (offset + instruction.size) instructions := by
  simp only [picks, placed]
  cases h : pickAt (offset, instruction) <;> simp [h]

@[simp] theorem calls_append (offset : Nat) (front back : List Instruction) :
    calls offset (front ++ back) = calls offset front ++ calls (offset + span front) back := by
  simp [calls, placed_append]

@[simp] theorem picks_append (offset : Nat) (front back : List Instruction) :
    picks offset (front ++ back) = picks offset front ++ picks (offset + span front) back := by
  simp [picks, placed_append]

/-- A character that names a definition is called, any other is written. -/
def ofChar (definitions : Dictionary Pattern) (c : Char) : Instruction :=
  if definitions.hasName c then .call c else .put c

theorem ofChar_of_some {definitions : Dictionary Pattern} {c : Char} {body : Pattern}
    (h : definitions.find? c = some body) : ofChar definitions c = .call c := by
  rw [ofChar, ← Dictionary.isSome_find?, h]
  rfl

theorem ofChar_of_none {definitions : Dictionary Pattern} {c : Char}
    (h : definitions.find? c = none) : ofChar definitions c = .put c := by
  rw [ofChar, ← Dictionary.isSome_find?, h]
  rfl

end Instruction

namespace Pattern

open Instruction

variable (definitions : Dictionary Pattern)

mutual

def codeSize : Pattern → Nat
  | .sequence parts => codeSizes parts
  | .text chars => span (chars.map (ofChar definitions))
  | .quoted chars => span (chars.map .put)
  | .choice alternatives => 3 + codeSizes alternatives + 3 * (alternatives.length - 1)
  | .optional body => 3 + codeSize body

def codeSizes : List Pattern → Nat
  | [] => 0
  | pattern :: patterns => codeSize pattern + codeSizes patterns

end

/-- Where the alternatives begin; all but the last one are followed by a jump. -/
def alternativeStarts : List Pattern → Nat → List Nat
  | [], _ => []
  | alternative :: others, offset =>
      offset :: alternativeStarts others (offset + codeSize definitions alternative + 3)

@[simp] theorem length_alternativeStarts (alternatives : List Pattern) (offset : Nat) :
    (alternativeStarts definitions alternatives offset).length = alternatives.length := by
  induction alternatives generalizing offset with
  | nil => rfl
  | cons alternative others ih => simp [alternativeStarts, ih]

mutual

def instructions : Pattern → Nat → List Instruction
  | .sequence parts, offset => instructionsEach parts offset
  | .text chars, _ => chars.map (ofChar definitions)
  | .quoted chars, _ => chars.map .put
  | .choice alternatives, offset =>
      .pick (alternativeStarts definitions alternatives (offset + 3)) ::
        instructionsBetween (offset + codeSize definitions (.choice alternatives))
          alternatives (offset + 3)
  | .optional body, offset =>
      .pick [offset + 3, offset + 3 + codeSize definitions body] :: instructions body (offset + 3)

def instructionsEach : List Pattern → Nat → List Instruction
  | [], _ => []
  | part :: parts, offset =>
      instructions part offset ++ instructionsEach parts (offset + codeSize definitions part)

/-- Alternatives with jumps to `target` between them. -/
def instructionsBetween (target : Nat) : List Pattern → Nat → List Instruction
  | [], _ => []
  | [last], offset => instructions last offset
  | alternative :: next :: others, offset =>
      instructions alternative offset ++ .jump target ::
        instructionsBetween target (next :: others) (offset + codeSize definitions alternative + 3)

end

mutual

theorem span_instructions (pattern : Pattern) (offset : Nat) :
    span (pattern.instructions definitions offset) = pattern.codeSize definitions := by
  cases pattern with
  | sequence parts =>
      simp only [instructions, codeSize]
      exact span_instructionsEach parts offset
  | text chars => simp [instructions, codeSize]
  | quoted chars => simp [instructions, codeSize]
  | choice alternatives =>
      simp only [instructions, codeSize, span_cons, size]
      rw [span_instructionsBetween]
      omega
  | optional body =>
      simp only [instructions, codeSize, span_cons, size]
      rw [span_instructions]

theorem span_instructionsEach (parts : List Pattern) (offset : Nat) :
    span (instructionsEach definitions parts offset) = codeSizes definitions parts := by
  match parts with
  | [] => rfl
  | part :: parts =>
      simp only [instructionsEach, codeSizes, span_append]
      rw [span_instructions, span_instructionsEach]

theorem span_instructionsBetween (target : Nat) (alternatives : List Pattern) (offset : Nat) :
    span (instructionsBetween definitions target alternatives offset) =
      codeSizes definitions alternatives + 3 * (alternatives.length - 1) := by
  match alternatives with
  | [] => rfl
  | [last] =>
      simp only [instructionsBetween, codeSizes]
      rw [span_instructions]
      simp
  | alternative :: next :: others =>
      simp only [instructionsBetween, span_append, span_cons, size]
      rw [span_instructions, span_instructionsBetween]
      simp only [codeSizes, List.length_cons]
      omega

end

theorem span_instructions_concat (pattern : Pattern) (offset : Nat) (last : Instruction) :
    span (pattern.instructions definitions offset ++ [last]) =
      pattern.codeSize definitions + last.size := by
  rw [span_append, span_instructions, span_cons, span_nil, Nat.add_zero]

end Pattern

end Wordmill
