import Mathlib.Algebra.GroupWithZero.Nat
import Wordmill.Proofs.Bytecode.Linked
import Wordmill.Proofs.Pattern.Soundness
import Wordmill.Proofs.Text.Offsets

/-!
# The size of the code

Code and tables take at most twelve bytes for each byte of the text that a
pattern is written with, and one more behind each subroutine.
-/

namespace Wordmill

open Text (bytes)

/-! ## Instructions with their tables -/

namespace Instruction

def footprint (instructions : List Instruction) : Nat :=
  (instructions.map fun instruction => instruction.size + instruction.tableSize).sum

@[simp] theorem footprint_nil : footprint [] = 0 := rfl

@[simp] theorem footprint_cons (instruction : Instruction) (instructions : List Instruction) :
    footprint (instruction :: instructions) =
      instruction.size + instruction.tableSize + footprint instructions := by
  simp [footprint]

@[simp] theorem footprint_append (front back : List Instruction) :
    footprint (front ++ back) = footprint front + footprint back := by
  simp [footprint]

private theorem footprint_eq (instructions : List Instruction) :
    footprint instructions = span instructions + (instructions.map tableSize).sum := by
  induction instructions with
  | nil => rfl
  | cons instruction instructions ih =>
      simp only [footprint_cons, span_cons, List.map_cons, List.sum_cons, ih]
      omega

end Instruction

open Instruction

namespace Pattern

/-! ## Text -/

private theorem footprint_chars {instruction : Char → Instruction}
    (h : ∀ c, (instruction c).size ≤ 3 * c.utf8Size ∧ (instruction c).tableSize = 0)
    (chars : List Char) : footprint (chars.map instruction) ≤ 3 * bytes chars := by
  induction chars with
  | nil => exact Nat.le_refl _
  | cons c chars ih =>
      have := h c
      simp only [List.map_cons, footprint_cons, Text.bytes_cons]
      omega

private theorem size_put_le (c : Char) :
    (Instruction.put c).size ≤ 3 * c.utf8Size ∧ (Instruction.put c).tableSize = 0 := by
  have := c.utf8Size_pos
  refine ⟨?_, rfl⟩
  rw [Instruction.size]
  omega

variable (definitions : Dictionary Pattern)

private theorem size_ofChar_le (c : Char) :
    (ofChar definitions c).size ≤ 3 * c.utf8Size ∧ (ofChar definitions c).tableSize = 0 := by
  have := c.utf8Size_pos
  unfold ofChar
  split
  · refine ⟨?_, rfl⟩
    rw [Instruction.size]
    omega
  · exact size_put_le c

private theorem footprint_atom {atom : Pattern} (h : IsAtom atom) (offset : Nat) :
    footprint (atom.instructions definitions offset) ≤ 3 * bytes atom.render := by
  cases h with
  | text _ _ => exact footprint_chars (size_ofChar_le definitions) _
  | @quoted chars _ _ =>
      have := footprint_chars size_put_le chars
      simp only [instructions, render, Text.bytes_cons, Text.bytes_append]
      omega

/-! ## Groups -/

/-- A jump takes no more than three bytes for the slash that it stands for. -/
private theorem footprint_between (target : Nat) {alternatives : List Pattern}
    (hatoms : ∀ alternative ∈ alternatives, IsAtom alternative) (offset : Nat) :
    footprint (instructionsBetween definitions target alternatives offset) ≤
      3 * bytes (renderChoice alternatives) := by
  match alternatives with
  | [] => exact Nat.le_refl _
  | [last] => exact footprint_atom definitions (hatoms last List.mem_cons_self) offset
  | alternative :: next :: others =>
      have hfirst := footprint_atom definitions (hatoms alternative List.mem_cons_self) offset
      have hothers := footprint_between target (fun other hother =>
        hatoms other (List.mem_cons_of_mem _ hother))
        (offset + codeSize definitions alternative + 3)
      have hslash : Char.utf8Size '/' = 1 := rfl
      simp only [instructionsBetween, footprint_append, footprint_cons, Instruction.size,
        tableSize, renderChoice, Text.bytes_append, Text.bytes_cons, hslash]
      omega

private theorem bytes_render_pos {atom : Pattern} (h : IsAtom atom) : 0 < bytes atom.render := by
  cases h with
  | text hsome _ => exact Text.bytes_pos hsome
  | quoted _ _ => exact Text.bytes_pos (List.cons_ne_nil _ _)

private theorem length_le_renderChoice {alternatives : List Pattern}
    (hatoms : ∀ alternative ∈ alternatives, IsAtom alternative) :
    alternatives.length ≤ bytes (renderChoice alternatives) := by
  match alternatives with
  | [] => exact Nat.le_refl _
  | [last] => exact bytes_render_pos (hatoms last List.mem_cons_self)
  | alternative :: next :: others =>
      have hothers := length_le_renderChoice fun other hother =>
        hatoms other (List.mem_cons_of_mem alternative hother)
      have hslash : Char.utf8Size '/' = 1 := rfl
      simp only [renderChoice, Text.bytes_append, Text.bytes_cons, hslash, List.length_cons]
        at hothers ⊢
      omega

private theorem sublist_inBrackets (group : Pattern) (content : List Char) :
    List.Sublist content (inBrackets group content) := by
  unfold inBrackets
  split
  · exact (List.sublist_append_left content _).cons _
  · exact List.Sublist.refl _

private theorem isGroup_of_mem {groups : List Pattern} (h : IsGroup (.sequence groups)) :
    ∀ group ∈ groups, IsGroup group := by
  cases h with
  | atom hatom => cases hatom
  | nested hnormal =>
      cases hnormal with
      | sequence _ hgroups _ => exact hgroups

private theorem alternatives_of_isGroup {alternatives : List Pattern}
    (h : IsGroup (.choice alternatives)) :
    2 ≤ alternatives.length ∧ ∀ alternative ∈ alternatives, IsAtom alternative := by
  cases h with
  | atom hatom => cases hatom
  | choice hlength hatoms => exact ⟨hlength, hatoms⟩
  | nested hnormal => cases hnormal

private theorem normal_of_isGroup {body : Pattern} (h : IsGroup (.optional body)) :
    Normal body := by
  cases h with
  | atom hatom => cases hatom
  | optional hbody => exact hbody
  | nested hnormal => cases hnormal

mutual

theorem footprint_group {group : Pattern} (h : IsGroup group) (offset : Nat) :
    footprint (group.instructions definitions offset) ≤ 12 * bytes group.render := by
  match group with
  | .sequence groups => exact footprint_each (isGroup_of_mem h) offset
  | .text chars =>
      have := footprint_chars (size_ofChar_le definitions) chars
      simp only [instructions, render]
      omega
  | .quoted chars =>
      have := footprint_chars size_put_le chars
      simp only [instructions, render, Text.bytes_cons, Text.bytes_append]
      omega
  | .choice alternatives =>
      obtain ⟨hlength, hatoms⟩ := alternatives_of_isGroup h
      have hbetween := footprint_between definitions
        (offset + codeSize definitions (.choice alternatives)) hatoms (offset + 3)
      have hcount := length_le_renderChoice hatoms
      simp only [instructions, footprint_cons, Instruction.size, tableSize,
        length_alternativeStarts, render]
      omega
  | .optional body =>
      have := footprint_group (.nested (normal_of_isGroup h)) (offset + 3)
      have hopen : Char.utf8Size '(' = 1 := rfl
      have hclose : Char.utf8Size ')' = 1 := rfl
      simp only [instructions, footprint_cons, Instruction.size, tableSize, render,
        Text.bytes_cons, Text.bytes_append, Text.bytes_nil, hopen, hclose, List.length_cons,
        List.length_nil]
      omega

theorem footprint_each {groups : List Pattern} (h : ∀ group ∈ groups, IsGroup group)
    (offset : Nat) :
    footprint (instructionsEach definitions groups offset) ≤ 12 * bytes (renderEach groups) := by
  match groups with
  | [] => exact Nat.le_refl _
  | group :: groups =>
      obtain ⟨hgroup, hgroups⟩ := List.forall_mem_cons.mp h
      have hfirst := footprint_group hgroup offset
      have hothers := footprint_each hgroups (offset + codeSize definitions group)
      have hbrackets := Text.bytes_le_of_sublist (sublist_inBrackets group group.render)
      simp only [instructionsEach, footprint_append, renderEach, Text.bytes_append]
      omega

end

/-- A pattern that was read is as long as its source, but for the quote at the end. -/
theorem footprint_of_parse {source : List Char} {pattern : Pattern}
    (h : parse source = .ok pattern) (offset : Nat) :
    footprint (pattern.instructions definitions offset) + 1 ≤ 25 * bytes source := by
  obtain ⟨hnormal, -, hrender⟩ := sound_parse h
  have hsize := footprint_group definitions (.nested hnormal) offset
  have hpos : 0 < bytes source := Text.bytes_pos fun hnil => by
    subst hnil
    contradiction
  have hquote : Char.utf8Size '"' = 1 := rfl
  rcases hrender with hrender | hrender
  · rw [hrender] at hsize
    omega
  · rw [hrender, Text.bytes_append, Text.bytes_cons, Text.bytes_nil, hquote] at hsize
    omega

end Pattern

/-! ## Programs -/

namespace Layout

variable (definitions : Dictionary Pattern)

theorem length_assemble (pattern : Pattern) :
    (assemble definitions pattern).length = footprint (program definitions pattern) := by
  simp [assemble, footprint_eq, List.length_flatMap]

/-- Each subroutine has the code of its body and a return. -/
theorem footprint_subroutineCode {found : List (Char × Pattern)} {room : Char → Nat}
    (hroom : ∀ entry ∈ found, ∀ offset,
      footprint (entry.2.instructions definitions offset) + 1 ≤ 25 * room entry.1) (offset : Nat) :
    footprint (subroutineCode definitions found offset) ≤
      25 * ((found.map (·.1)).map room).sum := by
  induction found generalizing offset with
  | nil => exact Nat.le_refl _
  | cons entry found ih =>
      obtain ⟨name, body⟩ := entry
      obtain ⟨hfirst, hothers⟩ := List.forall_mem_cons.mp hroom
      have hbody := hfirst offset
      have hrest := ih hothers (offset + body.codeSize definitions + 1)
      simp only [subroutineCode, footprint_append, footprint_cons, Instruction.size, tableSize,
        List.map_cons, List.sum_cons] at hbody ⊢
      omega

end Layout

end Wordmill
