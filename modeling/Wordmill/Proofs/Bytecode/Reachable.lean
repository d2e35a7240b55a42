import Wordmill.Proofs.Bytecode.Correctness
import Wordmill.Proofs.Bytecode.Failure

/-!
# Where a run of compiled code can be

The primary code ends with its only HALT and each subroutine with a RET, and no
jump leads out of either.  So a run is at the beginning of an instruction all
the time: in the primary code while no return is pending, and in the code of the
subroutines otherwise, where each return leads right behind a call.
-/

namespace Wordmill

namespace Instruction

/--
Where the machine may be after an instruction without an end of a subroutine in
between.  For a call this is where it gets back to.
-/
def Successor (site : Nat × Instruction) (target : Nat) : Prop :=
  match site.2 with
  | .halt | .ret => False
  | .put _ | .call _ => target = site.1 + site.2.size
  | .jump stop => target = stop
  | .pick starts => target ∈ starts

private theorem Closed.successor {offset target : Nat} {instructions : List Instruction}
    {site : Nat × Instruction} (hclosed : Closed offset instructions)
    (hsite : site ∈ placed offset instructions) (htarget : Successor site target) :
    site.1 < target ∧ Boundary offset instructions target := by
  have hleads := hclosed site hsite
  have hbehind := boundary_behind hsite
  obtain ⟨place, instruction⟩ := site
  cases instruction with
  | halt | ret => contradiction
  | put | call =>
      rw [htarget]
      exact ⟨Nat.lt_add_of_pos_right (size_pos _), hbehind⟩
  | jump stop =>
      rw [htarget]
      exact hleads
  | pick starts => exact hleads.2 target htarget

/-- A piece of code that ends for good: what comes after any of its instructions is in it. -/
def Ended (offset : Nat) (instructions : List Instruction) : Prop :=
  ∀ site ∈ placed offset instructions, ∀ target, Successor site target →
    site.1 < target ∧ ∃ instruction, (target, instruction) ∈ placed offset instructions

theorem Closed.ended {offset : Nat} {instructions : List Instruction} {last : Instruction}
    (hclosed : Closed offset instructions) (hlast : last = .halt ∨ last = .ret) :
    Ended offset (instructions ++ [last]) := by
  intro site hsite target htarget
  rw [placed_append] at hsite
  rcases List.mem_append.mp hsite with hsite | hsite
  · obtain ⟨hlt, hboundary⟩ := hclosed.successor hsite htarget
    exact ⟨hlt, hboundary.exists_instruction (List.cons_ne_nil last [])⟩
  · cases List.mem_singleton.mp hsite
    rcases hlast with rfl | rfl <;> contradiction

theorem Ended.append {offset : Nat} {front back : List Instruction} (hfront : Ended offset front)
    (hback : Ended (offset + span front) back) : Ended offset (front ++ back) := by
  intro site hsite target htarget
  rw [placed_append] at hsite ⊢
  rcases List.mem_append.mp hsite with hsite | hsite
  · obtain ⟨hlt, instruction, hmem⟩ := hfront site hsite target htarget
    exact ⟨hlt, instruction, List.mem_append_left _ hmem⟩
  · obtain ⟨hlt, instruction, hmem⟩ := hback site hsite target htarget
    exact ⟨hlt, instruction, List.mem_append_right _ hmem⟩

end Instruction

open Instruction Layout

variable (definitions : Dictionary Pattern)

namespace Layout

private theorem ended_subroutineCode (found : List (Char × Pattern)) (offset : Nat) :
    Ended offset (subroutineCode definitions found offset) := by
  induction found generalizing offset with
  | nil =>
      intro site hsite
      contradiction
  | cons entry found ih =>
      obtain ⟨name, body⟩ := entry
      have hbody := (body.closed_instructions definitions offset).ended (.inr rfl)
      have hfound := ih (offset + span (body.instructions definitions offset ++ [.ret]))
      have happend := hbody.append hfound
      rw [Pattern.span_instructions_concat] at happend
      simpa [subroutineCode, size, ← Nat.add_assoc] using happend

/-! ## Primary code and subroutines -/

/-- The instructions among which a run is while these returns are pending. -/
def region (pattern : Pattern) : List Nat → List (Nat × Instruction)
  | [] => placed 0 (pattern.instructions definitions 0 ++ [.halt])
  | _ :: _ =>
      placed (pattern.codeSize definitions + 1)
        (subroutineCode definitions (subroutines definitions pattern)
          (pattern.codeSize definitions + 1))

variable {pattern : Pattern} {returns : List Nat} {place : Nat}

theorem placed_program_eq_append (pattern : Pattern) (back : Nat) (returns : List Nat) :
    placed 0 (program definitions pattern) =
      region definitions pattern [] ++ region definitions pattern (back :: returns) := by
  simp [region, placed_program, placed_append, placed, Pattern.span_instructions]

theorem region_subset (pattern : Pattern) (returns : List Nat) :
    region definitions pattern returns ⊆ placed 0 (program definitions pattern) := by
  cases returns with
  | nil =>
      rw [placed_program_eq_append definitions pattern 0 []]
      exact List.subset_append_left _ _
  | cons back returns =>
      rw [placed_program_eq_append definitions pattern back returns]
      exact List.subset_append_right _ _

/-- The two regions lie on either side of the end of the primary code. -/
theorem eq_nil_iff_of_mem_region {site : Nat × Instruction}
    (h : site ∈ region definitions pattern returns) :
    returns = [] ↔ site.1 ≤ pattern.codeSize definitions := by
  cases returns with
  | nil =>
      have hle := (le_of_mem_placed h).2
      have hpos := size_pos site.2
      rw [Pattern.span_instructions_concat, show Instruction.halt.size = 1 from rfl] at hle
      simp only [true_iff]
      omega
  | cons back returns =>
      have hle := (le_of_mem_placed h).1
      simp only [reduceCtorEq, false_iff]
      omega

theorem successor_mem_region {site : Nat × Instruction} {target : Nat}
    (hsite : site ∈ region definitions pattern returns) (htarget : Successor site target) :
    site.1 < target ∧
      ∃ instruction, (target, instruction) ∈ region definitions pattern returns := by
  cases returns with
  | nil =>
      exact (pattern.closed_instructions definitions 0).ended (.inl rfl) site hsite target htarget
  | cons back returns => exact ended_subroutineCode definitions _ _ site hsite target htarget

/-- A HALT is for no pending returns, a RET for some, and a pick has something to pick from. -/
def Belongs (returns : List Nat) : Instruction → Prop
  | .halt => returns = []
  | .ret => returns ≠ []
  | .pick starts => 0 < starts.length
  | .put _ | .jump _ | .call _ => True

theorem belongs_of_inner {instruction : Instruction} (h : instruction.Inner) :
    Belongs returns instruction := by
  cases instruction with
  | halt | ret => contradiction
  | pick => exact h
  | put | jump | call => trivial

private theorem belongs_of_mem_region (hfault : compileFault definitions pattern = none)
    {site : Nat × Instruction} (h : site ∈ region definitions pattern returns) :
    Belongs returns site.2 := by
  simp only [compileFault, Option.or_eq_none_iff] at hfault
  obtain ⟨hroot, hsubroutines, -⟩ := hfault
  cases returns with
  | nil =>
      rcases List.mem_append.mp (mem_of_mem_placed h) with h | h
      · exact belongs_of_inner (pattern.inner_instructions definitions 0 hroot h)
      · rw [List.mem_singleton.mp h]
        rfl
  | cons back returns =>
      rcases inner_subroutineCode definitions _ _ hsubroutines (mem_of_mem_placed h) with h | h
      · rw [h]
        exact List.cons_ne_nil back returns
      · exact belongs_of_inner h

/-- A call leads from either region to a subroutine. -/
theorem startOf_mem_region (hfault : compileFault definitions pattern = none) {name : Char}
    (hcall : (place, .call name) ∈ region definitions pattern returns) (back : Nat) :
    ∃ instruction, (startOf definitions pattern name, instruction) ∈
      region definitions pattern (back :: returns) := by
  have hcall := region_subset definitions pattern returns hcall
  obtain ⟨body, -, -, hplaced⟩ := subroutine_of_call definitions hfault hcall
  have hreached : Reached definitions pattern name :=
    reached_of_mem_calls definitions (mem_calls_iff.mpr hcall)
  have hbehind := le_of_find?_subroutineStarts definitions
    (find?_startOf_of_reached definitions hreached)
  obtain ⟨instruction, hfirst⟩ := (boundary_start (startOf definitions pattern name)
    (body.instructions definitions (startOf definitions pattern name))).exists_instruction
      (List.cons_ne_nil .ret [])
  have hmem := hplaced hfirst
  rw [placed_program_eq_append definitions pattern back returns] at hmem
  rcases List.mem_append.mp hmem with hprimary | hmem
  · have hle := (eq_nil_iff_of_mem_region definitions hprimary).mp rfl
    simp only at hle
    omega
  · exact ⟨instruction, hmem⟩

/-! ## Tables -/

/-- The operand of a pick leads behind all instructions. -/
theorem le_operand_of_mem_link (startOf : Char → Nat) (instructions : List Instruction)
    (front back : List UInt8) (table : Nat) (hfault : tableFault table instructions = none)
    {starts : List Nat} (h : (place, .pick starts) ∈ placed front.length instructions) :
    ∃ operand, table ≤ operand ∧ Operand.decodeShort
      (front ++ (link startOf table instructions ++ back)).toArray (place + 1) = some operand := by
  induction instructions generalizing front table with
  | nil => contradiction
  | cons instruction instructions ih =>
      rcases List.mem_cons.mp h with hfirst | h
      · cases hfirst
        simp only [tableFault, Option.or_eq_none_iff] at hfault
        have hread := decodeShort_withAddress front
          (link startOf (table + tableSize (.pick starts)) instructions ++ back) .pick
          (le_of_addressFault hfault.1.1)
        refine ⟨table, Nat.le_refl table, ?_⟩
        simpa only [link, bytes, List.append_assoc] using hread
      · rw [← length_bytes startOf table, ← List.length_append] at h
        obtain ⟨operand, hle, hread⟩ := ih (front ++ instruction.bytes startOf table)
          (table + instruction.tableSize) (tableFault_tail hfault) h
        refine ⟨operand, by omega, ?_⟩
        simpa only [link, List.append_assoc] using hread

/-- Tables stand behind the program. -/
theorem span_program_le_operand {code : Bytecode} (hcode : compile pattern definitions = .ok code)
    {starts : List Nat} (h : (place, .pick starts) ∈ placed 0 (program definitions pattern)) :
    ∃ operand, span (program definitions pattern) ≤ operand ∧
      Operand.decodeShort code (place + 1) = some operand := by
  obtain ⟨hfault, rfl⟩ := (compile_eq_ok_iff definitions).mp hcode
  simp only [compileFault, Option.or_eq_none_iff] at hfault
  exact le_operand_of_mem_link _ _ [] _ _ hfault.2.2.2 h

end Layout

namespace Machine

variable {pattern : Pattern}

/-- Each pending return leads right behind a call, which stands where the returns below it say. -/
inductive Pending (pattern : Pattern) : List Nat → Prop
  | nil : Pending pattern []
  | cons {returns : List Nat} {place : Nat} {name : Char} :
      (place, .call name) ∈ region definitions pattern returns → Pending pattern returns →
      Pending pattern ((place + size (.call name)) :: returns)

private theorem Pending.exists_call {returns : List Nat} (h : Pending definitions pattern returns)
    {back : Nat} (hback : back ∈ returns) :
    ∃ place name, (place, .call name) ∈ placed 0 (program definitions pattern) ∧
      back = place + size (.call name) := by
  induction h with
  | nil => contradiction
  | cons hcall hpending ih =>
      rcases List.mem_cons.mp hback with rfl | hback
      · exact ⟨_, _, region_subset definitions pattern _ hcall, rfl⟩
      · exact ih hback

/-- The states in which a run of compiled code can be. -/
structure Located (pattern : Pattern) (state : State) : Prop where
  site : ∃ instruction, (state.offset, instruction) ∈ region definitions pattern state.returns
  pending : Pending definitions pattern state.returns
  room : state.returns.length ≤ maxCalls

private theorem located_initial (pattern : Pattern) : Located definitions pattern initial where
  site := (boundary_start 0 (pattern.instructions definitions 0)).exists_instruction
    (List.cons_ne_nil Instruction.halt [])
  pending := .nil
  room := Nat.zero_le maxCalls

/-- What a step does at an instruction. -/
inductive Performs (startOf : Char → Nat) (state : State) : Instruction → Except Halt State → Prop
  | halt : state.returns = [] → Performs startOf state .halt (.error .halted)
  | ret {back : Nat} {returns : List Nat} : state.returns = back :: returns →
      Performs startOf state .ret (.ok ⟨back, returns, state.output⟩)
  | call {name : Char} : state.returns.length < maxCalls →
      Performs startOf state (.call name)
        (.ok ⟨startOf name, (state.offset + size (.call name)) :: state.returns, state.output⟩)
  | refuse {name : Char} : state.returns.length = maxCalls →
      Performs startOf state (.call name) (.error .tooManyCalls)
  | proceed {instruction : Instruction} {target : Nat} {output : String} :
      (∀ name, instruction ≠ .call name) → Successor (state.offset, instruction) target →
      Performs startOf state instruction (.ok ⟨target, state.returns, output⟩)

variable {σ : Type} [Draw σ] [LawfulDraw σ] {code : Bytecode} {state next : State}
  {instruction : Instruction}

private theorem performs_step {startOf : Char → Nat}
    (hstands : instruction.StandsAt code startOf state.offset)
    (hbelongs : Belongs state.returns instruction) (hroom : state.returns.length ≤ maxCalls)
    (source : σ) : Performs startOf state instruction (step code state source).1 := by
  obtain ⟨offset, returns, output⟩ := state
  cases instruction with
  | halt =>
      rw [step_halt returns output source hstands]
      exact .halt hbelongs
  | ret =>
      obtain ⟨back, returns, rfl⟩ := List.exists_cons_of_ne_nil hbelongs
      rw [step_ret returns output source hstands]
      exact .ret rfl
  | put c =>
      rw [step_put returns output source hstands]
      exact .proceed nofun rfl
  | jump target =>
      rw [step_jump returns output source hstands]
      exact .proceed nofun rfl
  | call name =>
      rcases Nat.lt_or_eq_of_le hroom with hlt | hfull
      · rw [step_call returns output source hstands hlt]
        exact .call hlt
      · rw [step_call_of_full returns output source hstands hfull]
        exact .refuse hfull
  | pick starts =>
      obtain ⟨start, hstart, hstep⟩ := step_pick returns output source hstands hbelongs
      rw [hstep]
      exact .proceed nofun (List.mem_of_getElem? hstart)

private theorem Located.performs (hfault : compileFault definitions pattern = none)
    (h : Located definitions pattern state)
    (hsite : (state.offset, instruction) ∈ region definitions pattern state.returns)
    (hperforms : Performs (startOf definitions pattern) state instruction (.ok next)) :
    Located definitions pattern next := by
  obtain ⟨-, hpending, hroom⟩ := h
  cases hperforms with
  | ret hreturns =>
      -- the call that pushed the return stands in the region that is returned to
      rw [hreturns] at hpending hroom
      cases hpending with
      | cons hcall hpending =>
          exact ⟨(successor_mem_region definitions hcall rfl).2, hpending, Nat.le_of_succ_le hroom⟩
  | call hlt =>
      exact ⟨startOf_mem_region definitions hfault hsite _, .cons hsite hpending, hlt⟩
  | proceed _ htarget =>
      exact ⟨(successor_mem_region definitions hsite htarget).2, hpending, hroom⟩

/-- In a state of a run there is an instruction, and the machine does what it says. -/
theorem Located.exists_instruction (hcode : compile pattern definitions = .ok code)
    (h : Located definitions pattern state) (source : σ) :
    ∃ instruction, (state.offset, instruction) ∈ region definitions pattern state.returns ∧
      instruction.StandsAt code (startOf definitions pattern) state.offset ∧
      Performs (startOf definitions pattern) state instruction (step code state source).1 := by
  obtain ⟨instruction, hsite⟩ := h.site
  have hfault := ((compile_eq_ok_iff definitions).mp hcode).1
  have hstands := standsAt_of_compile definitions hcode (region_subset definitions _ _ hsite)
  have hbelongs := belongs_of_mem_region definitions hfault hsite
  exact ⟨instruction, hsite, hstands, performs_step hstands hbelongs h.room source⟩

private theorem located_of_reachable (hcode : compile pattern definitions = .ok code)
    {source now : σ} (h : Reachable code source state now) : Located definitions pattern state := by
  apply h.invariant (fun state _ => Located definitions pattern state)
    (located_initial definitions pattern)
  intro state next source after hlocated hstep
  obtain ⟨instruction, hsite, -, hperforms⟩ := hlocated.exists_instruction definitions hcode source
  rw [hstep] at hperforms
  exact hlocated.performs definitions ((compile_eq_ok_iff definitions).mp hcode).1 hsite hperforms

/-- In the operand of an instruction, or in the table that it leads to. -/
def Inside (pattern : Pattern) (code : Bytecode) (offset : Nat) : Prop :=
  ∃ site ∈ placed 0 (program definitions pattern),
    (site.1 < offset ∧ offset < site.1 + site.2.size) ∨
      ∃ table, Operand.decodeShort code (site.1 + 1) = some table ∧
        table ≤ offset ∧ offset < table + site.2.tableSize

private theorem not_inside (hcode : compile pattern definitions = .ok code)
    {site : Nat × Instruction} (hsite : site ∈ placed 0 (program definitions pattern)) :
    ¬Inside definitions pattern code site.1 := by
  rintro ⟨other, hother, hwithin | ⟨table, hread, hbehind, hlt⟩⟩
  · exact not_within hother hsite hwithin
  · obtain ⟨place, instruction⟩ := other
    cases instruction with
    | halt | ret | put | jump | call => exact absurd hlt (Nat.not_lt_of_le hbehind)
    | pick starts =>
        obtain ⟨operand, hle, hoperand⟩ := span_program_le_operand definitions hcode hother
        cases hread.symm.trans hoperand
        have hend := (le_of_mem_placed hsite).2
        have hpos := size_pos site.2
        omega

/--
A run of compiled code is at the beginning of an instruction all the time.  It is
in the primary code exactly when no return is pending, and every return leads
right behind a call.  Two things can end it: a HALT while no return is pending,
and a CALL while as many returns are pending as there may be.  Other than by
calls and returns it only moves forward.
-/
theorem at_instruction_of_reachable {pattern : Pattern} {code : Bytecode}
    (hcode : compile pattern definitions = .ok code) {source now : σ} {state : State}
    (h : Reachable code source state now) :
    (∃ instruction, (state.offset, instruction) ∈ placed 0 (program definitions pattern) ∧
        instruction.StandsAt code (startOf definitions pattern) state.offset) ∧
      ¬Inside definitions pattern code state.offset ∧
      (state.returns = [] ↔ state.offset ≤ pattern.codeSize definitions) ∧
      (∀ back ∈ state.returns, ∃ place name,
        (place, .call name) ∈ placed 0 (program definitions pattern) ∧
          back = place + size (.call name)) ∧
      (∀ halt after, step code state now = (.error halt, after) →
        (halt = .halted ∧ code[state.offset]? = some Opcode.halt.toByte ∧ state.returns = []) ∨
          (halt = .tooManyCalls ∧ code[state.offset]? = some Opcode.call.toByte ∧
            state.returns.length = maxCalls)) ∧
      ∀ next after, step code state now = (.ok next, after) →
        code[state.offset]? ≠ some Opcode.call.toByte →
        code[state.offset]? ≠ some Opcode.ret.toByte → state.offset < next.offset := by
  have hlocated := located_of_reachable definitions hcode h
  obtain ⟨instruction, hsite, hstands, hperforms⟩ :=
    hlocated.exists_instruction definitions hcode now
  have hplaced := region_subset definitions pattern state.returns hsite
  refine ⟨⟨instruction, hplaced, hstands⟩, not_inside definitions hcode hplaced,
    eq_nil_iff_of_mem_region definitions hsite,
    fun back => hlocated.pending.exists_call definitions, ?_, ?_⟩
  · intro halt after hstep
    rw [hstep] at hperforms
    cases hperforms with
    | halt hnil => exact .inl ⟨rfl, hstands, hnil⟩
    | refuse hfull => exact .inr ⟨rfl, hstands.1, hfull⟩
  · intro next after hstep hcall hret
    rw [hstep] at hperforms
    cases hperforms with
    | ret => exact absurd hstands hret
    | call => exact absurd hstands.1 hcall
    | proceed _ htarget => exact (successor_mem_region definitions hsite htarget).1

/-- The code of the choice between a text and a definition that mentions itself. -/
def choiceCode : Bytecode :=
  #[3, 0, 24, 2, 97, 1, 0, 11, 4, 0, 15, 2, 195, 169, 0, 2, 98, 3, 0, 30, 4, 0, 15, 5,
    0, 2, 0, 3, 0, 8, 0, 2, 0, 20, 0, 23]

theorem at_instruction_choiceCode :
    compile recursiveChoice recursiveDefinitions = .ok choiceCode ∧
      Reachable choiceCode (Script.mk [2, 1] .low) ⟨15, [23, 11], "b"⟩ ⟨[], .low⟩ ∧
      ¬Inside recursiveDefinitions recursiveChoice choiceCode 15 ∧
      ∀ back ∈ [23, 11], ∃ place name,
        (place, .call name) ∈ placed 0 (program recursiveDefinitions recursiveChoice) ∧
          back = place + size (.call name) := by
  have hfault : compileFault recursiveDefinitions recursiveChoice = none := by
    simp only [compileFault, program, subroutines_recursiveChoice]
    rfl
  have hbytes : choiceCode = (assemble recursiveDefinitions recursiveChoice).toArray := by
    simp only [assemble, program, startOf_recursiveChoice, subroutines_recursiveChoice]
    rfl
  have hcode := (compile_eq_ok_iff recursiveDefinitions).mpr ⟨hfault, hbytes⟩
  have hpick : step choiceCode initial (Script.mk [2, 1] .low) =
      (.ok ⟨8, [], ""⟩, Script.mk [1] .low) := by cbv
  have hcall : step choiceCode ⟨8, [], ""⟩ (Script.mk [1] .low) =
      (.ok ⟨15, [11], ""⟩, Script.mk [1] .low) := by cbv
  have hstands : (Instruction.put 'b').StandsAt choiceCode (fun _ => 15) 15 := ⟨rfl, rfl⟩
  have hput : step choiceCode ⟨15, [11], ""⟩ (Script.mk [1] .low) =
      (.ok ⟨17, [11], "b"⟩, Script.mk [1] .low) := step_put [11] "" _ hstands
  have hrepick : step choiceCode ⟨17, [11], "b"⟩ (Script.mk [1] .low) =
      (.ok ⟨20, [11], "b"⟩, Script.mk [] .low) := by cbv
  have hrecall : step choiceCode ⟨20, [11], "b"⟩ (Script.mk [] .low) =
      (.ok ⟨15, [23, 11], "b"⟩, Script.mk [] .low) := by cbv
  have hreachable : Reachable choiceCode (Script.mk [2, 1] .low) ⟨15, [23, 11], "b"⟩ ⟨[], .low⟩ :=
    ⟨5, .head hpick (.head hcall (.head hput (.head hrepick (.single hrecall))))⟩
  obtain ⟨-, hinside, -, hreturns, -⟩ :=
    at_instruction_of_reachable recursiveDefinitions hcode hreachable
  exact ⟨hcode, hreachable, hinside, hreturns⟩

end Machine

end Wordmill
