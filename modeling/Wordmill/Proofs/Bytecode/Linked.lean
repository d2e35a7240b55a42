import Wordmill.Proofs.Bytecode.Linking
import Wordmill.Proofs.Text.Utf8

/-!
# What stands in linked code

Compiled code holds every instruction of the layout at its offset, with an
operand that reads back as the address it stands for.
-/

namespace Wordmill

namespace Operand

theorem decodeShort_append (front back : List UInt8) {n : Nat} (h : n ≤ 0xFFFF) :
    decodeShort (front ++ ([(shortBytes n).1, (shortBytes n).2] ++ back)).toArray front.length =
      some n := by
  have hhigh : (UInt8.ofNat (n / 256)).toNat = n / 256 := Text.Utf8.toNat_ofNat (by omega)
  have hlow : (UInt8.ofNat n).toNat = n % 256 := by simp
  simp only [decodeShort, shortBytes, List.getElem?_toArray, List.getElem?_append_right,
    Nat.le_refl, Nat.le_add_right, Nat.sub_self, Nat.add_sub_cancel_left, List.cons_append,
    List.nil_append, List.getElem?_cons_zero, List.getElem?_cons_succ, hhigh, hlow,
    Option.some.injEq]
  omega

theorem decodeText_append (front back : List UInt8) (c : Char) :
    decodeText (front ++ (String.utf8EncodeChar c ++ back)).toArray front.length =
      some ([c], c.utf8Size) := by
  obtain ⟨lead, tail, hbytes, hspan⟩ := Text.Utf8.spanLength_utf8EncodeChar c
  have hlength := String.length_utf8EncodeChar c
  have hlead : (front ++ (String.utf8EncodeChar c ++ back)).toArray[front.length]? =
      some lead := by
    simp [hbytes]
  have hextract : ((front ++ (String.utf8EncodeChar c ++ back)).toArray.extract front.length
      (front.length + c.utf8Size)).toList = String.utf8EncodeChar c := by
    rw [← hlength]
    simp [-String.length_utf8EncodeChar]
  unfold decodeText
  simp only [hlead, hspan, hextract, Text.Utf8.decodeLossy_utf8EncodeChar]
  rw [if_pos (by simp)]

end Operand

open Instruction Layout

namespace Instruction

/-- The bytes at `offset` read as the instruction. -/
def StandsAt (code : Bytecode) (startOf : Char → Nat) (offset : Nat) : Instruction → Prop
  | .halt => code[offset]? = some Opcode.halt.toByte
  | .ret => code[offset]? = some Opcode.ret.toByte
  | .put c =>
      code[offset]? = some Opcode.put.toByte ∧
        Operand.decodeText code (offset + 1) = some ([c], c.utf8Size)
  | .jump target =>
      code[offset]? = some Opcode.jump.toByte ∧
        Operand.decodeShort code (offset + 1) = some target
  | .call name =>
      code[offset]? = some Opcode.call.toByte ∧
        Operand.decodeShort code (offset + 1) = some (startOf name)
  | .pick starts =>
      code[offset]? = some Opcode.pick.toByte ∧
        ∃ table, offset < table ∧ Operand.decodeShort code (offset + 1) = some table ∧
          Operand.decodeShort code table = some starts.length ∧
          ∀ k start, starts[k]? = some start →
            Operand.decodeShort code (table + 2 * (k + 1)) = some start

end Instruction

variable (definitions : Dictionary Pattern)

/-! ## Addresses that fit -/

theorem le_of_addressFault {target : Nat} (h : addressFault target = none) : target ≤ 0xFFFF := by
  unfold addressFault at h
  split at h
  · assumption
  · contradiction

/--
The instructions of a pattern go on in its code: there is something to pick
from, and a jump has an address that fits.
-/
def Instruction.Inner : Instruction → Prop
  | .halt | .ret => False
  | .put _ | .call _ => True
  | .jump target => 0 < target ∧ target ≤ 0xFFFF
  | .pick starts => 0 < starts.length

private theorem inner_ofChar (c : Char) : (ofChar definitions c).Inner := by
  unfold ofChar
  split <;> trivial

namespace Pattern

mutual

theorem inner_instructions (pattern : Pattern) (offset : Nat)
    (hfault : pattern.fault definitions offset = none) {instruction : Instruction}
    (h : instruction ∈ pattern.instructions definitions offset) : instruction.Inner := by
  unfold fault at hfault
  split at hfault
  · contradiction
  rename_i hempty
  cases pattern with
  | sequence parts => exact inner_instructionsEach parts offset hfault h
  | text chars =>
      obtain ⟨c, -, rfl⟩ := List.mem_map.mp h
      exact inner_ofChar definitions c
  | quoted chars =>
      obtain ⟨c, -, rfl⟩ := List.mem_map.mp h
      trivial
  | choice alternatives =>
      obtain ⟨hbetween, hend⟩ := Option.or_eq_none_iff.mp hfault
      rcases List.mem_cons.mp h with rfl | h
      · simp only [isEmpty, decide_eq_true_eq] at hempty
        simp only [Instruction.Inner, length_alternativeStarts]
        omega
      · rcases inner_instructionsBetween _ alternatives (offset + 3) hbetween h with rfl | hinner
        · refine ⟨?_, le_of_addressFault hend⟩
          simp only [codeSize]
          omega
        · exact hinner
  | optional body =>
      rcases List.mem_cons.mp h with rfl | h
      · exact Nat.succ_pos 1
      · exact inner_instructions body (offset + 3) hfault h

theorem inner_instructionsEach (parts : List Pattern) (offset : Nat)
    (hfault : faultEach definitions parts offset = none) {instruction : Instruction}
    (h : instruction ∈ instructionsEach definitions parts offset) : instruction.Inner := by
  match parts with
  | [] => contradiction
  | part :: parts =>
      obtain ⟨hpart, hparts⟩ := Option.or_eq_none_iff.mp hfault
      rcases List.mem_append.mp h with h | h
      · exact inner_instructions part offset hpart h
      · exact inner_instructionsEach parts _ hparts h

theorem inner_instructionsBetween (stop : Nat) (alternatives : List Pattern) (offset : Nat)
    (hfault : faultBetween definitions alternatives offset = none) {instruction : Instruction}
    (h : instruction ∈ instructionsBetween definitions stop alternatives offset) :
    instruction = .jump stop ∨ instruction.Inner := by
  match alternatives with
  | [] => contradiction
  | [last] =>
      obtain ⟨hlast, -⟩ := Option.or_eq_none_iff.mp hfault
      exact .inr (inner_instructions last offset hlast h)
  | alternative :: next :: others =>
      obtain ⟨halternative, hothers⟩ := Option.or_eq_none_iff.mp hfault
      rcases List.mem_append.mp h with h | h
      · exact .inr (inner_instructions alternative offset halternative h)
      · rcases List.mem_cons.mp h with h | h
        · exact .inl h
        · exact inner_instructionsBetween stop (next :: others) _ hothers h

end

end Pattern

theorem inner_subroutineCode (found : List (Char × Pattern)) (offset : Nat)
    (hfault : subroutineFault definitions found offset = none) {instruction : Instruction}
    (h : instruction ∈ subroutineCode definitions found offset) :
    instruction = .ret ∨ instruction.Inner := by
  induction found generalizing offset with
  | nil => contradiction
  | cons entry found ih =>
      obtain ⟨name, body⟩ := entry
      obtain ⟨hbody, hothers⟩ := Option.or_eq_none_iff.mp hfault
      rcases List.mem_append.mp h with h | h
      · exact .inr (body.inner_instructions definitions offset hbody h)
      · rcases List.mem_cons.mp h with h | h
        · exact .inl h
        · exact ih _ hothers h

theorem call_fits {starts : Dictionary Nat} {calls : List (Nat × Char)}
    (hfault : callFault starts calls = none) {call : Nat × Char} (h : call ∈ calls) :
    ∃ start, starts.find? call.2 = some start ∧ start ≤ 0xFFFF := by
  induction calls with
  | nil => contradiction
  | cons first calls ih =>
      obtain ⟨offset, name⟩ := first
      simp only [callFault] at hfault
      split at hfault
      · contradiction
      · rename_i start hstart
        obtain ⟨haddress, hcalls⟩ := Option.or_eq_none_iff.mp hfault
        rcases List.mem_cons.mp h with rfl | h
        · exact ⟨start, hstart, le_of_addressFault haddress⟩
        · exact ih hcalls h

/-! ## Reading the instructions back -/

/-- The address of a jump or a call, if there is one, is not zero and fits into two bytes. -/
def Instruction.Fits (startOf : Char → Nat) : Instruction → Prop
  | .jump target => 0 < target ∧ target ≤ 0xFFFF
  | .call name => 0 < startOf name ∧ startOf name ≤ 0xFFFF
  | _ => True

theorem decodeShort_shorts (front back : List UInt8) (numbers : List Nat)
    (h : numbers.findSome? addressFault = none) (k n : Nat) (hk : numbers[k]? = some n) :
    Operand.decodeShort (front ++ (shorts numbers ++ back)).toArray (front.length + 2 * k) =
      some n := by
  induction numbers generalizing front k with
  | nil => simp at hk
  | cons first numbers ih =>
      simp only [List.findSome?_cons] at h
      split at h
      · contradiction
      · rename_i hfirst
        have hshorts : shorts (first :: numbers) =
            [(Operand.shortBytes first).1, (Operand.shortBytes first).2] ++ shorts numbers := rfl
        cases k with
        | zero =>
            cases hk
            rw [hshorts, List.append_assoc]
            exact Operand.decodeShort_append front _ (le_of_addressFault hfirst)
        | succ k =>
            have hrest := ih
              (front ++ [(Operand.shortBytes first).1, (Operand.shortBytes first).2]) h k hk
            rw [List.length_append, List.length_cons, List.length_cons, List.length_nil,
              List.append_assoc] at hrest
            rw [hshorts, List.append_assoc, show front.length + 2 * (k + 1) =
              front.length + (0 + 1 + 1) + 2 * k by omega]
            exact hrest

theorem getElem?_opcode (front back : List UInt8) (opcode : Opcode) :
    (front ++ opcode.toByte :: back).toArray[front.length]? = some opcode.toByte := by
  simp

theorem decodeShort_withAddress (front back : List UInt8) (opcode : Opcode) {target : Nat}
    (h : target ≤ 0xFFFF) :
    Operand.decodeShort (front ++ (withAddress opcode target ++ back)).toArray
      (front.length + 1) = some target := by
  simpa [withAddress] using Operand.decodeShort_append (front ++ [opcode.toByte]) back h

@[simp] theorem length_link (startOf : Char → Nat) (table : Nat)
    (instructions : List Instruction) :
    (link startOf table instructions).length = span instructions := by
  induction instructions generalizing table with
  | nil => rfl
  | cons instruction instructions ih => simp [link, ih]

@[simp] theorem length_table (instruction : Instruction) :
    (Layout.table instruction).length = instruction.tableSize := by
  cases instruction <;> simp [Layout.table, tableSize]
  omega

/-- A pick with its table further down. -/
theorem standsAt_pick (startOf : Char → Nat) (front middle back : List UInt8)
    (starts : List Nat) (table : Nat) (htable : table = front.length + 3 + middle.length)
    (hfault : addressFault table = none)
    (hentries : (starts.length :: starts).findSome? addressFault = none) :
    (Instruction.pick starts).StandsAt
      (front ++ (withAddress .pick table ++
        (middle ++ (shorts (starts.length :: starts) ++ back)))).toArray startOf front.length := by
  have hread (k n : Nat) (hk : (starts.length :: starts)[k]? = some n) :
      Operand.decodeShort (front ++ (withAddress .pick table ++
        (middle ++ (shorts (starts.length :: starts) ++ back)))).toArray (table + 2 * k) =
          some n := by
    have hshorts := decodeShort_shorts (front ++ (withAddress .pick table ++ middle)) back
      (starts.length :: starts) hentries k n hk
    have hlength : (front ++ (withAddress .pick table ++ middle)).length = table := by
      simp [withAddress, htable]
      omega
    rw [hlength] at hshorts
    simpa only [List.append_assoc] using hshorts
  refine ⟨getElem?_opcode front _ .pick, table, by omega,
    decodeShort_withAddress front _ .pick (le_of_addressFault hfault), hread 0 _ rfl, ?_⟩
  intro k start hstart
  exact hread (k + 1) start hstart

theorem tableFault_tail {table : Nat} {instruction : Instruction}
    {instructions : List Instruction}
    (h : tableFault table (instruction :: instructions) = none) :
    tableFault (table + instruction.tableSize) instructions = none := by
  cases instruction with
  | pick starts =>
      simp only [tableFault, Option.or_eq_none_iff, Nat.add_assoc] at h
      exact h.2
  | halt | ret | put | jump | call => exact h

/-- Linked bytes read as the instructions they were made of. -/
theorem standsAt_link (startOf : Char → Nat) (instructions : List Instruction)
    (front tables : List UInt8) (table : Nat)
    (htable : table = front.length + span instructions + tables.length)
    (hfits : ∀ instruction ∈ instructions, instruction.Fits startOf)
    (hfault : tableFault table instructions = none) :
    ∀ site ∈ placed front.length instructions,
      site.2.StandsAt (front ++ (link startOf table instructions ++
        (tables ++ instructions.flatMap Layout.table))).toArray startOf site.1 := by
  induction instructions generalizing front tables table with
  | nil => simp [placed]
  | cons instruction instructions ih =>
      have hothers (hnext : tableFault (table + instruction.tableSize) instructions = none) :=
        ih (front ++ instruction.bytes startOf table) (tables ++ Layout.table instruction)
          (table + instruction.tableSize)
          (by simp [htable]; omega)
          (fun other hother => hfits other (List.mem_cons_of_mem _ hother)) hnext
      simp only [List.length_append, length_bytes, List.append_assoc] at hothers
      have hfit := hfits instruction List.mem_cons_self
      intro site hsite
      simp only [placed, List.mem_cons] at hsite
      simp only [link, List.flatMap_cons, List.append_assoc]
      rcases hsite with rfl | hsite
      · cases instruction with
        | halt => exact getElem?_opcode front _ .halt
        | ret => exact getElem?_opcode front _ .ret
        | put c =>
            refine ⟨getElem?_opcode front _ .put, ?_⟩
            simpa [bytes] using
              Operand.decodeText_append (front ++ [Opcode.put.toByte]) _ c
        | jump target =>
            exact ⟨getElem?_opcode front _ .jump, decodeShort_withAddress front _ .jump hfit.2⟩
        | call name =>
            exact ⟨getElem?_opcode front _ .call, decodeShort_withAddress front _ .call hfit.2⟩
        | pick starts =>
            simp only [tableFault, Option.or_eq_none_iff] at hfault
            have hpick := standsAt_pick startOf front
              (link startOf (table + tableSize (.pick starts)) instructions ++ tables)
              (instructions.flatMap Layout.table) starts table
              (by simp [htable, size]; omega) hfault.1.1 hfault.1.2
            simpa only [bytes, Layout.table, List.append_assoc] using hpick
      · exact hothers (tableFault_tail hfault) site hsite

theorem le_of_find?_subroutineStarts {found : List (Char × Pattern)} {offset start : Nat}
    {name : Char} (h : (subroutineStarts definitions found offset).find? name = some start) :
    offset ≤ start := by
  induction found generalizing offset with
  | nil => contradiction
  | cons entry found ih =>
      obtain ⟨other, body⟩ := entry
      simp only [subroutineStarts, Dictionary.find?] at h
      split at h
      · simp_all
      · have := ih h
        omega

/-- Without a fault every address in the program fits. -/
theorem fits_program {pattern : Pattern} (hfault : compileFault definitions pattern = none)
    (instruction : Instruction) (h : instruction ∈ program definitions pattern) :
    instruction.Fits (startOf definitions pattern) := by
  simp only [compileFault, Option.or_eq_none_iff] at hfault
  obtain ⟨hroot, hsubroutines, hcalls, -⟩ := hfault
  cases instruction with
  | halt | ret | put | pick => trivial
  | jump target =>
      rcases List.mem_append.mp h with h | h
      · exact pattern.inner_instructions definitions 0 hroot h
      · rcases List.mem_cons.mp h with h | h
        · contradiction
        · rcases inner_subroutineCode definitions _ _ hsubroutines h with h | hinner
          · contradiction
          · exact hinner
  | call name =>
      obtain ⟨place, hplace⟩ := exists_mem_placed 0 h
      obtain ⟨start, hstart, hle⟩ := call_fits hcalls (mem_calls_iff.mpr hplace)
      have := le_of_find?_subroutineStarts definitions hstart
      simp only [Fits, startOf, hstart, Option.getD_some]
      omega

theorem compile_eq_ok_iff {pattern : Pattern} {code : Bytecode} :
    compile pattern definitions = .ok code ↔
      compileFault definitions pattern = none ∧ code = (assemble definitions pattern).toArray := by
  rw [compile_eq]
  cases compileFault definitions pattern <;> simp [eq_comm]

/-- Compiled code holds every instruction of the program at its offset. -/
theorem standsAt_of_compile {pattern : Pattern} {code : Bytecode}
    (h : compile pattern definitions = .ok code) {site : Nat × Instruction}
    (hsite : site ∈ placed 0 (program definitions pattern)) :
    site.2.StandsAt code (startOf definitions pattern) site.1 := by
  obtain ⟨hfault, rfl⟩ := (compile_eq_ok_iff definitions).mp h
  have hfits := fits_program definitions hfault
  simp only [compileFault, Option.or_eq_none_iff] at hfault
  have hlink := standsAt_link (startOf definitions pattern) (program definitions pattern) [] []
    (span (program definitions pattern)) (by simp) hfits hfault.2.2.2
  exact hlink site hsite

/-! ## Nothing is left open -/

def Instruction.hasAddress : Instruction → Bool
  | .jump _ | .call _ | .pick _ => true
  | .halt | .ret | .put _ => false

/--
Compiled code is the layout byte for byte.  There is one subroutine for each
definition that is reached, however the definitions mention each other, and the
address of every jump, call and pick has been filled in.
-/
theorem compile_eq_assemble (pattern : Pattern) :
    (∀ name, name ∈ (subroutines definitions pattern).map (·.1) ↔
        Reached definitions pattern name) ∧
      ((subroutines definitions pattern).map (·.1)).Nodup ∧
      (subroutines definitions pattern).length ≤ definitions.length ∧
      ∀ code, compile pattern definitions = .ok code →
        code.toList = assemble definitions pattern ∧
          ∀ site ∈ placed 0 (program definitions pattern), site.2.hasAddress = true →
            ∃ operand, 0 < operand ∧ Operand.decodeShort code (site.1 + 1) = some operand := by
  refine ⟨mem_subroutines_iff definitions pattern, nodup_reached definitions definitions _,
    length_reached_le definitions definitions _, ?_⟩
  intro code hcode
  obtain ⟨hfault, hbytes⟩ := (compile_eq_ok_iff definitions).mp hcode
  refine ⟨by rw [hbytes], ?_⟩
  rintro ⟨offset, instruction⟩ hsite haddress
  have hstands := standsAt_of_compile definitions hcode hsite
  have hfits : instruction.Fits (startOf definitions pattern) := by
    apply fits_program definitions hfault
    rw [← map_snd_placed 0 (program definitions pattern)]
    exact List.mem_map_of_mem hsite
  cases instruction with
  | halt | ret | put => contradiction
  | jump target => exact ⟨target, hfits.1, hstands.2⟩
  | call name => exact ⟨startOf definitions pattern name, hfits.1, hstands.2⟩
  | pick starts =>
      obtain ⟨-, table, hlt, htable, -⟩ := hstands
      exact ⟨table, by omega, htable⟩

/-- A choice between a text and a definition that mentions itself, and quoted text after it. -/
def recursiveChoice : Pattern :=
  .sequence [.choice [.text ['a'], .text ['B']], .quoted ['é']]

def recursiveDefinitions : Dictionary Pattern :=
  [('B', .sequence [.text ['b'], .optional (.text ['B'])])]

theorem subroutines_recursiveChoice :
    subroutines recursiveDefinitions recursiveChoice =
      [('B', .sequence [.text ['b'], .optional (.text ['B'])])] := by
  rw [subroutines, show recursiveChoice.mentions recursiveDefinitions = ['B'] from rfl,
    reached_of_some recursiveDefinitions [] rfl]
  congr 1
  exact (reached_of_none recursiveDefinitions [] rfl).trans (reached_nil _ _)

theorem startOf_recursiveChoice :
    startOf recursiveDefinitions recursiveChoice = fun name => if name = 'B' then 15 else 0 := by
  funext name
  simp only [startOf, subroutines_recursiveChoice, subroutineStarts, Dictionary.find?]
  split <;> rfl

theorem compile_recursiveChoice :
    ∃ code, compile recursiveChoice recursiveDefinitions = .ok code ∧
      code.toList = [3, 0, 24, 2, 97, 1, 0, 11, 4, 0, 15, 2, 195, 169, 0, 2, 98, 3, 0, 30, 4, 0,
        15, 5, 0, 2, 0, 3, 0, 8, 0, 2, 0, 20, 0, 23] := by
  have hfault : compileFault recursiveDefinitions recursiveChoice = none := by
    simp only [compileFault, program, subroutines_recursiveChoice]
    rfl
  have hcompile := (compile_eq_ok_iff recursiveDefinitions).mpr ⟨hfault, rfl⟩
  obtain ⟨-, -, -, hbytes⟩ := compile_eq_assemble recursiveDefinitions recursiveChoice
  refine ⟨_, hcompile, ?_⟩
  rw [(hbytes _ hcompile).1]
  simp only [assemble, program, startOf_recursiveChoice, subroutines_recursiveChoice]
  rfl

end Wordmill
