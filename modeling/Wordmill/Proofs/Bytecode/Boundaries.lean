import Wordmill.Proofs.Bytecode.Layout

/-!
# Where instructions begin

Jumps and picks lead forward, and to a place where an instruction begins or
where the code of their pattern ends.
-/

namespace Wordmill

namespace Instruction

/-- The first byte of an instruction, or the first byte behind all of them. -/
def Boundary (offset : Nat) (instructions : List Instruction) (place : Nat) : Prop :=
  place = offset + span instructions ∨
    ∃ instruction, (place, instruction) ∈ placed offset instructions

theorem boundary_end (offset : Nat) (instructions : List Instruction) :
    Boundary offset instructions (offset + span instructions) := .inl rfl

theorem boundary_start (offset : Nat) (instructions : List Instruction) :
    Boundary offset instructions offset := by
  cases instructions with
  | nil => exact .inl rfl
  | cons instruction instructions => exact .inr ⟨instruction, List.mem_cons_self⟩

namespace Boundary

variable {offset place : Nat} {instruction : Instruction}
  {instructions front back : List Instruction}

theorem append_left (h : Boundary offset front place) :
    Boundary offset (front ++ back) place := by
  rcases h with rfl | ⟨instruction, hmem⟩
  · rcases boundary_start (offset + span front) back with hend | ⟨instruction, hmem⟩
    · left
      rw [span_append]
      omega
    · exact .inr ⟨instruction, by rw [placed_append]; exact List.mem_append_right _ hmem⟩
  · exact .inr ⟨instruction, by rw [placed_append]; exact List.mem_append_left _ hmem⟩

theorem append_right (h : Boundary (offset + span front) back place) :
    Boundary offset (front ++ back) place := by
  rcases h with rfl | ⟨instruction, hmem⟩
  · left
    rw [span_append, Nat.add_assoc]
  · exact .inr ⟨instruction, by rw [placed_append]; exact List.mem_append_right _ hmem⟩

theorem cons (h : Boundary (offset + instruction.size) instructions place) :
    Boundary offset (instruction :: instructions) place := by
  have hfront : span [instruction] = instruction.size := by simp
  rw [← hfront] at h
  exact h.append_right

theorem le (h : Boundary offset instructions place) :
    offset ≤ place ∧ place ≤ offset + span instructions := by
  rcases h with rfl | ⟨instruction, hmem⟩
  · omega
  · have hplace := le_of_mem_placed hmem
    have := size_pos instruction
    simp only at hplace
    omega

/-- In front of further code, a boundary is a place where an instruction begins. -/
theorem exists_instruction (h : Boundary offset front place) (hback : back ≠ []) :
    ∃ instruction, (place, instruction) ∈ placed offset (front ++ back) := by
  rw [placed_append]
  rcases h with rfl | ⟨instruction, hmem⟩
  · obtain ⟨instruction, instructions, rfl⟩ := List.exists_cons_of_ne_nil hback
    exact ⟨instruction, List.mem_append_right _ List.mem_cons_self⟩
  · exact ⟨instruction, List.mem_append_left _ hmem⟩

end Boundary

/-- Behind an instruction there is a boundary. -/
theorem boundary_behind {offset : Nat} {instructions : List Instruction}
    {site : Nat × Instruction} (h : site ∈ placed offset instructions) :
    Boundary offset instructions (site.1 + site.2.size) := by
  induction instructions generalizing offset with
  | nil => contradiction
  | cons instruction instructions ih =>
      rcases List.mem_cons.mp h with rfl | h
      · exact (boundary_start (offset + instruction.size) instructions).cons
      · exact (ih h).cons

/-- No instruction begins within another one. -/
theorem not_within {offset : Nat} {instructions : List Instruction}
    {first second : Nat × Instruction} (hfirst : first ∈ placed offset instructions)
    (hsecond : second ∈ placed offset instructions) :
    ¬(first.1 < second.1 ∧ second.1 < first.1 + first.2.size) := by
  induction instructions generalizing offset with
  | nil => contradiction
  | cons instruction instructions ih =>
      rcases List.mem_cons.mp hfirst with rfl | hfirst
      · rcases List.mem_cons.mp hsecond with rfl | hsecond
        · omega
        · have := le_of_mem_placed hsecond
          simp only
          omega
      · rcases List.mem_cons.mp hsecond with rfl | hsecond
        · have := le_of_mem_placed hfirst
          omega
        · exact ih hfirst hsecond

/--
Where an instruction may go on other than behind itself: further down and at one
of `stops`.  A pick has no more alternatives than there are bytes up to a stop.
-/
def Leads (stops : Nat → Prop) (place : Nat) : Instruction → Prop
  | .jump target => place < target ∧ stops target
  | .pick starts =>
      (∃ stop, stops stop ∧ place + starts.length ≤ stop) ∧
        ∀ start ∈ starts, place < start ∧ stops start
  | .halt | .ret | .put _ | .call _ => True

theorem Leads.mono {stops others : Nat → Prop} (hsubset : ∀ place, stops place → others place)
    {place : Nat} {instruction : Instruction} (h : instruction.Leads stops place) :
    instruction.Leads others place := by
  cases instruction with
  | halt | ret | put | call => trivial
  | jump target => exact ⟨h.1, hsubset target h.2⟩
  | pick starts =>
      obtain ⟨⟨stop, hstop, hlength⟩, hstarts⟩ := h
      exact ⟨⟨stop, hsubset stop hstop, hlength⟩,
        fun start hstart => ⟨(hstarts start hstart).1, hsubset start (hstarts start hstart).2⟩⟩

/-- Every instruction of a piece of code leads to one of its boundaries. -/
def Closed (offset : Nat) (instructions : List Instruction) : Prop :=
  ∀ site ∈ placed offset instructions, site.2.Leads (Boundary offset instructions) site.1

theorem closed_nil (offset : Nat) : Closed offset [] := by
  intro site hsite
  contradiction

theorem Closed.append {offset : Nat} {front back : List Instruction}
    (hfront : Closed offset front) (hback : Closed (offset + span front) back) :
    Closed offset (front ++ back) := by
  intro site hsite
  rw [placed_append] at hsite
  rcases List.mem_append.mp hsite with hsite | hsite
  · exact (hfront site hsite).mono fun _ => Boundary.append_left
  · exact (hback site hsite).mono fun _ => Boundary.append_right

theorem Closed.cons {offset : Nat} {instruction : Instruction} {instructions : List Instruction}
    (hfirst : instruction.Leads (Boundary offset (instruction :: instructions)) offset)
    (hrest : Closed (offset + instruction.size) instructions) :
    Closed offset (instruction :: instructions) := by
  intro site hsite
  rcases List.mem_cons.mp hsite with rfl | hsite
  · exact hfirst
  · exact (hrest site hsite).mono fun _ => Boundary.cons

/-- Instructions that lead nowhere but behind themselves. -/
theorem closed_map {α : Type} (ofItem : α → Instruction) (items : List α)
    (h : ∀ item stops place, (ofItem item).Leads stops place) (offset : Nat) :
    Closed offset (items.map ofItem) := by
  intro site hsite
  obtain ⟨item, -, hitem⟩ := List.mem_map.mp (mem_of_mem_placed hsite)
  rw [← hitem]
  exact h item _ _

end Instruction

namespace Pattern

open Instruction

variable (definitions : Dictionary Pattern)

/-- Alternatives begin where one of their instructions begins, or at the end. -/
theorem boundary_of_mem_alternativeStarts (target : Nat) (alternatives : List Pattern)
    (offset start : Nat) (h : start ∈ alternativeStarts definitions alternatives offset) :
    Boundary offset (instructionsBetween definitions target alternatives offset) start := by
  induction alternatives generalizing offset with
  | nil => contradiction
  | cons alternative others ih =>
      rcases List.mem_cons.mp h with rfl | h
      · exact boundary_start _ _
      · cases others with
        | nil => contradiction
        | cons next others =>
            have hrest := ih _ h
            apply Boundary.append_right
            apply Boundary.cons
            rw [span_instructions]
            exact hrest

mutual

theorem closed_instructions (pattern : Pattern) (offset : Nat) :
    Closed offset (pattern.instructions definitions offset) := by
  cases pattern with
  | sequence parts => exact closed_instructionsEach parts offset
  | text chars =>
      apply closed_map
      intro c stops place
      unfold ofChar
      split <;> trivial
  | quoted chars => exact closed_map .put chars (fun _ _ _ => trivial) offset
  | choice alternatives =>
      have hbetween : span (instructionsBetween definitions
          (offset + codeSize definitions (.choice alternatives)) alternatives (offset + 3)) =
            codeSizes definitions alternatives + 3 * (alternatives.length - 1) :=
        span_instructionsBetween definitions _ alternatives (offset + 3)
      refine Closed.cons ⟨⟨_, boundary_end _ _, ?_⟩, ?_⟩ ?_
      · rw [length_alternativeStarts, span_cons, hbetween]
        simp only [size]
        omega
      · intro start hstart
        have hstart := boundary_of_mem_alternativeStarts definitions
          (offset + codeSize definitions (.choice alternatives)) alternatives (offset + 3) start
          hstart
        exact ⟨Nat.lt_of_lt_of_le (by omega) hstart.le.1, hstart.cons⟩
      · apply closed_instructionsBetween
        change _ = offset + 3 + span (instructionsBetween definitions _ alternatives (offset + 3))
        rw [hbetween]
        simp only [codeSize]
        omega
  | optional body =>
      have hbody : span (body.instructions definitions (offset + 3)) = codeSize definitions body :=
        span_instructions definitions body (offset + 3)
      have hskip := boundary_end (offset + 3) (body.instructions definitions (offset + 3))
      rw [hbody] at hskip
      refine Closed.cons ⟨⟨_, boundary_end _ _, ?_⟩, ?_⟩ (closed_instructions body (offset + 3))
      · simp only [List.length_cons, List.length_nil, span_cons, size]
        omega
      · intro start hstart
        rcases List.mem_cons.mp hstart with rfl | hstart
        · exact ⟨by omega, (boundary_start _ _).cons⟩
        · cases List.mem_singleton.mp hstart
          exact ⟨by omega, hskip.cons⟩

theorem closed_instructionsEach (parts : List Pattern) (offset : Nat) :
    Closed offset (instructionsEach definitions parts offset) := by
  match parts with
  | [] => exact closed_nil offset
  | part :: parts =>
      apply Closed.append
      · exact closed_instructions part offset
      · rw [span_instructions]
        exact closed_instructionsEach parts _

/-- The jumps between alternatives lead behind the last one. -/
theorem closed_instructionsBetween (target : Nat) (alternatives : List Pattern) (offset : Nat)
    (htarget : target =
      offset + span (instructionsBetween definitions target alternatives offset)) :
    Closed offset (instructionsBetween definitions target alternatives offset) := by
  match alternatives with
  | [] => exact closed_nil offset
  | [last] => exact closed_instructions last offset
  | alternative :: next :: others =>
      have hend : target = offset + span (alternative.instructions definitions offset) +
          size (.jump target) + span (instructionsBetween definitions target (next :: others)
            (offset + alternative.codeSize definitions + 3)) := by
        rw [instructionsBetween, span_append, span_cons] at htarget
        omega
      apply Closed.append
      · exact closed_instructions alternative offset
      · refine Closed.cons ⟨?_, ?_⟩ ?_
        · have := size_pos (.jump target)
          omega
        · left
          rw [span_cons]
          omega
        · rw [span_instructions] at hend ⊢
          exact closed_instructionsBetween target (next :: others) _ hend

end

end Pattern

namespace Layout

open Instruction

variable (definitions : Dictionary Pattern)

private theorem closed_subroutineCode (found : List (Char × Pattern)) (offset : Nat) :
    Closed offset (subroutineCode definitions found offset) := by
  induction found generalizing offset with
  | nil => exact closed_nil offset
  | cons entry found ih =>
      obtain ⟨name, body⟩ := entry
      apply Closed.append
      · exact body.closed_instructions definitions offset
      · rw [Pattern.span_instructions]
        exact Closed.cons trivial (ih _)

/-- Jumps and picks never leave the program. -/
theorem closed_program (pattern : Pattern) : Closed 0 (program definitions pattern) := by
  apply Closed.append
  · exact pattern.closed_instructions definitions 0
  · rw [Pattern.span_instructions, Nat.zero_add]
    exact Closed.cons trivial (closed_subroutineCode definitions _ _)

end Layout

end Wordmill
