import Wordmill.Draw.Script
import Wordmill.Proofs.Bytecode.Following

/-!
# Correctness of compiled code

Calls are followed down to the last level for which there is room.  That gives
a bound for the steps of a run, and a run of compiled code writes and draws what
the evaluation of its pattern writes and draws.
-/

namespace Wordmill

open Instruction Layout

variable (definitions : Dictionary Pattern)

/-! ## Where subroutines stand -/

private theorem subroutine_placed {found : List (Char × Pattern)} {offset start : Nat} {name : Char}
    (hfault : subroutineFault definitions found offset = none)
    (hstart : (subroutineStarts definitions found offset).find? name = some start) :
    ∃ body, (name, body) ∈ found ∧ body.fault definitions start = none ∧
      placed start (body.instructions definitions start ++ [.ret]) ⊆
        placed offset (subroutineCode definitions found offset) := by
  induction found generalizing offset with
  | nil => contradiction
  | cons entry found ih =>
      obtain ⟨other, body⟩ := entry
      obtain ⟨hbody, hothers⟩ := Option.or_eq_none_iff.mp hfault
      have hcode : subroutineCode definitions ((other, body) :: found) offset =
          (body.instructions definitions offset ++ [.ret]) ++
            subroutineCode definitions found (offset + body.codeSize definitions + 1) := by
        simp [subroutineCode]
      simp only [subroutineStarts, Dictionary.find?] at hstart
      rw [hcode, placed_append]
      split at hstart
      · rename_i hname
        cases hstart
        cases hname
        exact ⟨body, List.mem_cons_self, hbody, List.subset_append_left _ _⟩
      · obtain ⟨found, hmem, hfound, hplaced⟩ := ih hothers hstart
        refine ⟨found, List.mem_cons_of_mem _ hmem, hfound, ?_⟩
        rw [Pattern.span_instructions_concat, ← Nat.add_assoc]
        exact List.subset_append_of_subset_right _ hplaced

theorem placed_program (pattern : Pattern) :
    placed 0 (program definitions pattern) =
      placed 0 (pattern.instructions definitions 0) ++
        (pattern.codeSize definitions, .halt) ::
          placed (pattern.codeSize definitions + 1)
            (subroutineCode definitions (subroutines definitions pattern)
              (pattern.codeSize definitions + 1)) := by
  rw [program, placed_append, Pattern.span_instructions, Nat.zero_add]
  rfl

/-- Behind every call of a program there is the definition with the name that is called. -/
theorem subroutine_of_call {pattern : Pattern} (hfault : compileFault definitions pattern = none)
    {place : Nat} {name : Char}
    (hcall : (place, .call name) ∈ placed 0 (program definitions pattern)) :
    ∃ body, definitions.find? name = some body ∧
      body.fault definitions (startOf definitions pattern name) = none ∧
      placed (startOf definitions pattern name)
          (body.instructions definitions (startOf definitions pattern name) ++ [.ret]) ⊆
        placed 0 (program definitions pattern) := by
  simp only [compileFault, Option.or_eq_none_iff] at hfault
  obtain ⟨-, hsubroutines, hcalls, -⟩ := hfault
  obtain ⟨start, hstart, -⟩ := call_fits hcalls (mem_calls_iff.mpr hcall)
  obtain ⟨body, hmem, hbody, hplaced⟩ := subroutine_placed definitions hsubroutines hstart
  have hstartOf : startOf definitions pattern name = start := by
    simp only [startOf, hstart, Option.getD_some]
  rw [hstartOf]
  refine ⟨body, find?_of_mem_reached definitions hmem, hbody, ?_⟩
  rw [placed_program]
  exact List.subset_append_of_subset_right _ (List.subset_cons_of_subset _ hplaced)

theorem span_program_le_size {pattern : Pattern} {code : Bytecode}
    (hcode : compile pattern definitions = .ok code) :
    span (program definitions pattern) ≤ code.size := by
  obtain ⟨-, rfl⟩ := (compile_eq_ok_iff definitions).mp hcode
  simp [assemble]

/-! ## Runs -/

namespace Machine

variable {σ : Type} [Draw σ] [LawfulDraw σ]

/-- As many steps for each byte as a subroutine may take one level of calls further down. -/
def stepsPerByte (code : Bytecode) (callsLeft : Nat) : Nat := Nat.pow (code.size + 1) callsLeft

theorem stepsPerByte_pos (code : Bytecode) (callsLeft : Nat) : 0 < stepsPerByte code callsLeft :=
  Nat.pow_pos (Nat.succ_pos _)

theorem stepsPerByte_succ (code : Bytecode) (callsLeft : Nat) :
    stepsPerByte code (callsLeft + 1) = (code.size + 1) * stepsPerByte code callsLeft :=
  Nat.mul_comm _ _

/-- A subroutine takes no more steps than its call may take. -/
theorem call_steps_le {code : Bytecode} (name : Char) {n : Nat} (h : n < code.size)
    (callsLeft : Nat) :
    n * stepsPerByte code callsLeft + 2 ≤
      size (.call name) * stepsPerByte code (callsLeft + 1) := by
  have hpos := stepsPerByte_pos code callsLeft
  rw [stepsPerByte_succ]
  calc
    n * stepsPerByte code callsLeft + 2 ≤
        n * stepsPerByte code callsLeft + 2 * stepsPerByte code callsLeft := by omega
    _ = (n + 2) * stepsPerByte code callsLeft := (Nat.add_mul n 2 _).symm
    _ ≤ (code.size + 1) * stepsPerByte code callsLeft := Nat.mul_le_mul_right _ (by omega)
    _ ≤ size (.call name) * ((code.size + 1) * stepsPerByte code callsLeft) :=
        Nat.le_mul_of_pos_left _ (size_pos _)

omit [LawfulDraw σ] in
theorem follows_mention_of_none {code : Bytecode} {startOf : Char → Nat}
    {sites : List (Nat × Instruction)}
    (hstands : ∀ site ∈ sites, site.2.StandsAt code startOf site.1)
    {callsLeft : Nat} {returns : List Nat} {c : Char} (hnone : definitions.find? c = none)
    (offset : Nat) (evaluation : Evaluation σ) (hsite : (offset, ofChar definitions c) ∈ sites) :
    Follows code ((ofChar definitions c).size * stepsPerByte code callsLeft) returns offset
      (offset + (ofChar definitions c).size) evaluation
      (Pattern.mention definitions callsLeft c evaluation) := by
  rw [ofChar_of_none hnone] at hsite ⊢
  rw [Pattern.mention_of_none hnone]
  exact follows_put hstands (stepsPerByte_pos code callsLeft) offset evaluation hsite

/-- Evaluation with a number of calls left is followed when there is room for as many calls. -/
theorem follows_mention {pattern : Pattern} {code : Bytecode}
    (hcode : compile pattern definitions = .ok code) (callsLeft : Nat) (returns : List Nat)
    (hroom : returns.length + callsLeft = maxCalls) :
    FollowsMention (σ := σ) code (placed 0 (program definitions pattern)) definitions returns
      (stepsPerByte code callsLeft) (Pattern.mention definitions callsLeft) := by
  have hfault := ((compile_eq_ok_iff definitions).mp hcode).1
  have hstands (site : Nat × Instruction)
      (hsite : site ∈ placed 0 (program definitions pattern)) :=
    standsAt_of_compile definitions hcode hsite
  induction callsLeft generalizing returns with
  | zero =>
      intro c offset evaluation hsite
      cases hbody : definitions.find? c with
      | none => exact follows_mention_of_none definitions hstands hbody offset evaluation hsite
      | some body =>
          have hcall : ofChar definitions c = .call c := ofChar_of_some hbody
          simp only [Pattern.mention, hbody]
          rw [hcall] at hsite ⊢
          refine ⟨0, Nat.mul_pos (size_pos _) (stepsPerByte_pos code 0), _, rfl, .refl _ _, ?_⟩
          exact step_call_of_full returns _ _ (hstands _ hsite) hroom
  | succ callsLeft ih =>
      intro c offset evaluation hsite
      cases hbody : definitions.find? c with
      | none => exact follows_mention_of_none definitions hstands hbody offset evaluation hsite
      | some body =>
          have hcall : ofChar definitions c = .call c := ofChar_of_some hbody
          rw [Pattern.mention_of_some hbody]
          rw [hcall] at hsite ⊢
          obtain ⟨found, hfound, hfits, hplaced⟩ := subroutine_of_call definitions hfault hsite
          rw [hbody] at hfound
          cases hfound
          rw [placed_append, List.append_subset, Pattern.span_instructions] at hplaced
          obtain ⟨hinstructions, hret⟩ := hplaced
          have hret := (List.cons_subset.mp hret).1
          -- the body is followed with one call less and one return more
          have hinner := ih ((offset + 3) :: returns) (by simp only [List.length_cons]; omega)
          have hrun := follows_pattern hstands hinner (stepsPerByte_pos code callsLeft) body _
            evaluation hfits hinstructions
          have hstep := step_call returns evaluation.output evaluation.source (hstands _ hsite)
            (by omega)
          refine (hrun.call hstep fun output source =>
            step_ret returns output source (hstands _ hret) (offset + 3)).mono ?_
          have hspan := (le_of_mem_placed hret).2
          have hsize := span_program_le_size definitions hcode
          simp only [size] at hspan
          exact call_steps_le c (by omega) callsLeft

private theorem steps_lt_stepBudget {code : Bytecode} {n : Nat} (h : n < code.size) :
    n * stepsPerByte code maxCalls + 1 ≤ stepBudget code := by
  have hbudget : stepBudget code = (code.size + 1) * stepsPerByte code maxCalls :=
    stepsPerByte_succ code maxCalls
  rw [hbudget]
  exact mul_add_one_le (stepsPerByte_pos code maxCalls) (by omega)

end Machine

/-- How the machine tells of an evaluation that ends in this way. -/
def Progress.halt {σ : Type} : Progress σ → Machine.Halt
  | .ok _ => .halted
  | .error _ => .tooManyCalls

namespace Machine

variable {σ : Type} [Draw σ] [LawfulDraw σ]

private theorem runFrom_compile {pattern : Pattern} {code : Bytecode}
    (hcode : compile pattern definitions = .ok code) (source : σ) :
    ∃ last : State, last.output = (pattern.evaluate definitions source).latest.output ∧
      runFrom code (stepBudget code) initial source =
        ⟨some (pattern.evaluate definitions source).halt, last,
          (pattern.evaluate definitions source).latest.source⟩ := by
  have hfault := ((compile_eq_ok_iff definitions).mp hcode).1
  have hstands (site : Nat × Instruction)
      (hsite : site ∈ placed 0 (program definitions pattern)) :=
    standsAt_of_compile definitions hcode hsite
  have hroot : pattern.fault definitions 0 = none := by
    simp only [compileFault, Option.or_eq_none_iff] at hfault
    exact hfault.1
  have hsubset : placed 0 (pattern.instructions definitions 0) ⊆
      placed 0 (program definitions pattern) := by
    rw [placed_program]
    exact List.subset_append_left _ _
  have hhalt : (pattern.codeSize definitions, .halt) ∈ placed 0 (program definitions pattern) := by
    rw [placed_program]
    exact List.mem_append_right _ List.mem_cons_self
  have hsize : pattern.codeSize definitions < code.size := by
    have hspan := (le_of_mem_placed hhalt).2
    have := span_program_le_size definitions hcode
    simp only [size] at hspan
    omega
  have hbudget := steps_lt_stepBudget hsize
  have hfollows := follows_pattern hstands (follows_mention definitions hcode maxCalls [] rfl)
    (stepsPerByte_pos code maxCalls) pattern 0 ⟨"", source⟩ hroot hsubset
  rw [Nat.zero_add] at hfollows
  unfold Pattern.evaluate
  cases hprogress : pattern.evaluateWith (Pattern.mention definitions maxCalls) ⟨"", source⟩ with
  | ok next =>
      rw [hprogress] at hfollows
      obtain ⟨n, hn, hsteps⟩ := hfollows
      refine ⟨⟨pattern.codeSize definitions, [], next.output⟩, rfl, ?_⟩
      have hlast := step_halt [] next.output next.source (hstands _ hhalt)
      exact hsteps.runFrom_of_error (by omega) hlast
  | error stopped =>
      rw [hprogress] at hfollows
      obtain ⟨n, hn, last, houtput, hsteps, hlast⟩ := hfollows
      refine ⟨last, houtput, ?_⟩
      exact hsteps.runFrom_of_error (by omega) hlast

theorem run_eq_evaluate {pattern : Pattern} {code : Bytecode}
    (hcode : compile pattern definitions = .ok code) (source : σ) :
    (runFrom code (stepBudget code) initial source).halt =
        some (pattern.evaluate definitions source).halt ∧
      run code source =
        ((pattern.evaluate definitions source).latest.output,
          (pattern.evaluate definitions source).latest.source) := by
  obtain ⟨last, houtput, hrun⟩ := runFrom_compile definitions hcode source
  constructor
  · rw [hrun]
  · simp only [run, hrun, houtput]

/--
A run of compiled code halts and has then written what the evaluation of the
pattern writes, after the same requests to the source.  There are too many
calls for the machine exactly when the evaluation is stopped.
-/
theorem run_compile {pattern : Pattern} {code : Bytecode}
    (hcode : compile pattern definitions = .ok code) (source : σ) :
    (runFrom code (stepBudget code) initial (Recorded.ofSource source)).halt =
        some (pattern.evaluate definitions (Recorded.ofSource source)).halt ∧
      run code (Recorded.ofSource source) =
        ((pattern.evaluate definitions (Recorded.ofSource source)).latest.output,
          (pattern.evaluate definitions (Recorded.ofSource source)).latest.source) :=
  run_eq_evaluate definitions hcode (Recorded.ofSource source)

/-- A definition that mentions itself behind a choice. -/
def recursiveSyllable : Dictionary Pattern :=
  [('S', .sequence [.choice [.text ['b'], .text ['d']], .optional (.text ['S'])])]

theorem subroutines_recursiveSyllable :
    subroutines recursiveSyllable (.text ['S', 'S']) =
      [('S', .sequence [.choice [.text ['b'], .text ['d']], .optional (.text ['S'])])] := by
  rw [subroutines, show Pattern.mentions recursiveSyllable (.text ['S', 'S']) = ['S', 'S'] from rfl,
    reached_of_some recursiveSyllable ['S'] rfl]
  congr 1
  refine (reached_of_none recursiveSyllable ['S'] rfl).trans ?_
  exact (reached_of_none recursiveSyllable [] rfl).trans (reached_nil _ _)

theorem run_recursiveSyllable :
    ∃ code, compile (.text ['S', 'S']) recursiveSyllable = .ok code ∧
      run code (Recorded.ofSource (Script.mk [2, 1, 1, 2, 2, 2] .low)) =
        ("dbd", ⟨⟨[], .low⟩, #[(1, 2), (1, 2), (1, 2), (1, 2), (1, 2), (1, 2)]⟩) := by
  have hfault : compileFault recursiveSyllable (.text ['S', 'S']) = none := by
    simp only [compileFault, program, subroutines_recursiveSyllable]
    rfl
  have hcode := (compile_eq_ok_iff recursiveSyllable).mpr ⟨hfault, rfl⟩
  refine ⟨_, hcode, ?_⟩
  exact (run_compile _ hcode (Script.mk [2, 1, 1, 2, 2, 2] .low)).2.trans (by rfl)

end Machine

end Wordmill
