import Wordmill.Proofs.Bytecode.Steps
import Wordmill.Proofs.Pattern.Evaluation

/-!
# Runs that follow an evaluation

The code of a pattern, wherever it stands, does what the evaluation of the
pattern does: it arrives behind its last instruction or at a call for which
there is no room.
-/

namespace Wordmill

open Instruction

namespace Machine

variable {σ : Type} [Draw σ]

/--
From `offset` with the state of an evaluation, the machine gets to `stop` with
the state in which the evaluation goes on.  If the evaluation is stopped, the
machine halts with too many calls.  `budget` bounds the steps.
-/
def Follows (code : Bytecode) (budget : Nat) (returns : List Nat) (offset stop : Nat)
    (evaluation : Evaluation σ) : Progress σ → Prop
  | .ok next =>
      ∃ n ≤ budget, Steps code n ⟨offset, returns, evaluation.output⟩ evaluation.source
        ⟨stop, returns, next.output⟩ next.source
  | .error stopped =>
      ∃ n < budget, ∃ last : State, last.output = stopped.output ∧
        Steps code n ⟨offset, returns, evaluation.output⟩ evaluation.source last stopped.source ∧
          step code last stopped.source = (.error .tooManyCalls, stopped.source)

namespace Follows

variable {code : Bytecode} {m n : Nat} {returns : List Nat} {offset middle stop : Nat}
  {evaluation : Evaluation σ} {progress : Progress σ}

theorem refl : Follows code 0 returns offset offset evaluation (.ok evaluation) :=
  ⟨0, Nat.le_refl 0, .refl _ _⟩

theorem mono (hle : m ≤ n) (h : Follows code m returns offset stop evaluation progress) :
    Follows code n returns offset stop evaluation progress := by
  cases progress with
  | ok next =>
      obtain ⟨k, hk, hsteps⟩ := h
      exact ⟨k, Nat.le_trans hk hle, hsteps⟩
  | error stopped =>
      obtain ⟨k, hk, hrest⟩ := h
      exact ⟨k, Nat.lt_of_lt_of_le hk hle, hrest⟩

theorem bind (proceed : Evaluation σ → Progress σ)
    (hfirst : Follows code m returns offset middle evaluation progress)
    (hrest : ∀ next, progress = .ok next →
      Follows code n returns middle stop next (proceed next)) :
    Follows code (m + n) returns offset stop evaluation (progress.bind proceed) := by
  cases progress with
  | error stopped => exact hfirst.mono (Nat.le_add_right m n)
  | ok next =>
      obtain ⟨k, hk, hsteps⟩ := hfirst
      have hrest := hrest next rfl
      simp only [Except.bind]
      cases hnext : proceed next with
      | ok final =>
          rw [hnext] at hrest
          obtain ⟨l, hl, hothers⟩ := hrest
          exact ⟨k + l, Nat.add_le_add hk hl, hsteps.trans hothers⟩
      | error stopped =>
          rw [hnext] at hrest
          obtain ⟨l, hl, last, hlast, hothers, hstep⟩ := hrest
          exact ⟨k + l, Nat.add_lt_add_of_le_of_lt hk hl, last, hlast, hsteps.trans hothers, hstep⟩

theorem head {next : Evaluation σ}
    (hstep : step code ⟨offset, returns, evaluation.output⟩ evaluation.source =
      (.ok ⟨middle, returns, next.output⟩, next.source))
    (hrest : Follows code n returns middle stop next progress) :
    Follows code (n + 1) returns offset stop evaluation progress := by
  have hfirst : Follows code 1 returns offset middle evaluation (.ok next) :=
    ⟨1, Nat.le_refl 1, .single hstep⟩
  rw [Nat.add_comm]
  refine hfirst.bind (fun _ => progress) ?_
  intro _ hnext
  cases hnext
  exact hrest

/-- A last step that writes nothing. -/
theorem tail (h : Follows code n returns offset middle evaluation progress)
    (hstep : ∀ output (source : σ), step code ⟨middle, returns, output⟩ source =
      (.ok ⟨stop, returns, output⟩, source)) :
    Follows code (n + 1) returns offset stop evaluation progress := by
  have hlast (next : Evaluation σ) : Follows code 1 returns middle stop next (.ok next) :=
    ⟨1, Nat.le_refl 1, .single (hstep next.output next.source)⟩
  have hbind := h.bind .ok fun next _ => hlast next
  cases progress <;> exact hbind

/-- A subroutine runs between a call and its return. -/
theorem call {start back : Nat}
    (h : Follows code n (back :: returns) start middle evaluation progress)
    (hcall : step code ⟨offset, returns, evaluation.output⟩ evaluation.source =
      (.ok ⟨start, back :: returns, evaluation.output⟩, evaluation.source))
    (hret : ∀ output (source : σ), step code ⟨middle, back :: returns, output⟩ source =
      (.ok ⟨back, returns, output⟩, source)) :
    Follows code (n + 2) returns offset back evaluation progress := by
  cases progress with
  | ok next =>
      obtain ⟨k, hk, hsteps⟩ := h
      have hlast : Steps code 1 _ _ _ _ := .single (hret next.output next.source)
      exact ⟨k + 1 + 1, by omega, .head hcall (hsteps.trans hlast)⟩
  | error stopped =>
      obtain ⟨k, hk, last, hlast, hsteps, hstep⟩ := h
      exact ⟨k + 1, by omega, last, hlast, .head hcall hsteps, hstep⟩

end Follows

/-! ## Patterns -/

section

variable {code : Bytecode} {startOf : Char → Nat} {sites : List (Nat × Instruction)}
  {definitions : Dictionary Pattern} {returns : List Nat} {scale : Nat}
  {mention : Char → Evaluation σ → Progress σ}

/-- What `mention` does with a character is done by its instruction, in `scale` steps a byte. -/
def FollowsMention (code : Bytecode) (sites : List (Nat × Instruction))
    (definitions : Dictionary Pattern) (returns : List Nat) (scale : Nat)
    (mention : Char → Evaluation σ → Progress σ) : Prop :=
  ∀ c offset evaluation, (offset, ofChar definitions c) ∈ sites →
    Follows code ((ofChar definitions c).size * scale) returns offset
      (offset + (ofChar definitions c).size) evaluation (mention c evaluation)

private theorem follows_text
    (hmention : FollowsMention code sites definitions returns scale mention)
    (chars : List Char) (offset : Nat) (evaluation : Evaluation σ)
    (hcode : placed offset (chars.map (ofChar definitions)) ⊆ sites) :
    Follows code (span (chars.map (ofChar definitions)) * scale) returns offset
      (offset + span (chars.map (ofChar definitions))) evaluation
      (Pattern.evaluateText mention chars evaluation) := by
  induction chars generalizing offset evaluation with
  | nil =>
      rw [List.map_nil, span_nil, Nat.zero_mul]
      exact .refl
  | cons c chars ih =>
      obtain ⟨hsite, hcode⟩ := List.cons_subset.mp hcode
      rw [List.map_cons, span_cons, Nat.add_mul, ← Nat.add_assoc]
      exact (hmention c offset evaluation hsite).bind _ fun next _ => ih _ next hcode

theorem mul_add_one_le {m n : Nat} (hscale : 0 < scale) (h : m + 1 ≤ n) :
    m * scale + 1 ≤ n * scale :=
  calc
    m * scale + 1 ≤ m * scale + scale := Nat.add_le_add_left hscale _
    _ = (m + 1) * scale := (Nat.succ_mul m scale).symm
    _ ≤ n * scale := Nat.mul_le_mul_right scale h

theorem follows_put (hstands : ∀ site ∈ sites, site.2.StandsAt code startOf site.1)
    (hscale : 0 < scale) {c : Char} (offset : Nat) (evaluation : Evaluation σ)
    (hsite : (offset, .put c) ∈ sites) :
    Follows code (size (.put c) * scale) returns offset (offset + size (.put c)) evaluation
      (.ok (evaluation.write c)) := by
  have hstep := step_put returns evaluation.output evaluation.source (hstands _ hsite)
  have hend : Follows code 0 returns (offset + size (.put c)) (offset + size (.put c))
      (evaluation.write c) (.ok (evaluation.write c)) := .refl
  refine (hend.head hstep).mono ?_
  exact Nat.mul_pos (size_pos _) hscale

private theorem follows_quoted (hstands : ∀ site ∈ sites, site.2.StandsAt code startOf site.1)
    (hscale : 0 < scale) (chars : List Char) (offset : Nat)
    (evaluation : Evaluation σ) (hcode : placed offset (chars.map .put) ⊆ sites) :
    Follows code (span (chars.map .put) * scale) returns offset
      (offset + span (chars.map .put)) evaluation
      (.ok (chars.foldl Evaluation.write evaluation)) := by
  induction chars generalizing offset evaluation with
  | nil =>
      rw [List.map_nil, span_nil, Nat.zero_mul]
      exact .refl
  | cons c chars ih =>
      obtain ⟨hsite, hcode⟩ := List.cons_subset.mp hcode
      rw [List.map_cons, span_cons, Nat.add_mul, ← Nat.add_assoc]
      have hchars := ih _ (evaluation.write c) hcode
      refine (follows_put hstands hscale offset evaluation hsite).bind
        (fun _ => .ok (chars.foldl Evaluation.write (evaluation.write c))) ?_
      intro next hnext
      cases hnext
      exact hchars

private theorem follows_optional [LawfulDraw σ]
    (hstands : ∀ site ∈ sites, site.2.StandsAt code startOf site.1)
    (hscale : 0 < scale) {offset size : Nat} {evaluation : Evaluation σ} {progress : Progress σ}
    (hpick : (offset, .pick [offset + 3, offset + 3 + size]) ∈ sites)
    (hbody : Follows code (size * scale) returns (offset + 3) (offset + 3 + size)
      (evaluation.draw 2).2 progress) :
    Follows code ((3 + size) * scale) returns offset (offset + (3 + size)) evaluation
      (if (evaluation.draw 2).1 = 1 then progress else .ok (evaluation.draw 2).2) := by
  obtain ⟨start, hstart, hstep⟩ := step_pick returns evaluation.output evaluation.source
    (hstands _ hpick) (Nat.zero_lt_succ 1)
  rw [← Nat.add_assoc]
  split
  · rename_i hone
    have hanswer : (Draw.between 1 2 evaluation.source).1 = 1 := hone
    simp only [List.length_cons, List.length_nil, hanswer] at hstart
    cases hstart
    exact (hbody.head hstep).mono (mul_add_one_le hscale (by omega))
  · rename_i hother
    have hlow := LawfulDraw.low_le 1 2 evaluation.source (by omega)
    have hhigh := LawfulDraw.le_high 1 2 evaluation.source (by omega)
    have hanswer : (Draw.between 1 2 evaluation.source).1 = 2 := by
      have : (Draw.between 1 2 evaluation.source).1 ≠ 1 := hother
      omega
    simp only [List.length_cons, List.length_nil, hanswer] at hstart
    cases hstart
    have hend : Follows code 0 returns (offset + 3 + size) (offset + 3 + size)
        (evaluation.draw 2).2 (.ok (evaluation.draw 2).2) := .refl
    refine (hend.head hstep).mono ?_
    exact Nat.mul_pos (by omega) hscale

-- A choice enters one alternative only, so the row of alternatives is followed from the start
-- of any of them, and not from its own start.
mutual

theorem follows_pattern [LawfulDraw σ]
    (hstands : ∀ site ∈ sites, site.2.StandsAt code startOf site.1)
    (hmention : FollowsMention code sites definitions returns scale mention)
    (hscale : 0 < scale) (pattern : Pattern) (offset : Nat) (evaluation : Evaluation σ)
    (hfault : pattern.fault definitions offset = none)
    (hcode : placed offset (pattern.instructions definitions offset) ⊆ sites) :
    Follows code (pattern.codeSize definitions * scale) returns offset
      (offset + pattern.codeSize definitions) evaluation
      (pattern.evaluateWith mention evaluation) := by
  unfold Pattern.fault at hfault
  split at hfault
  · contradiction
  rename_i hfilled
  cases pattern with
  | sequence parts =>
      simp only [Pattern.codeSize, Pattern.evaluateWith]
      exact follows_each hstands hmention hscale parts offset evaluation hfault hcode
  | text chars =>
      simp only [Pattern.codeSize, Pattern.evaluateWith]
      exact follows_text hmention chars offset evaluation hcode
  | quoted chars =>
      simp only [Pattern.codeSize, Pattern.evaluateWith]
      exact follows_quoted hstands hscale chars offset evaluation hcode
  | choice alternatives =>
      obtain ⟨hbetween, -⟩ := Option.or_eq_none_iff.mp hfault
      obtain ⟨hpick, hcode⟩ := List.cons_subset.mp hcode
      have hlength := Pattern.two_le_length hfilled
      obtain ⟨start, hstart, hstep⟩ := step_pick returns evaluation.output evaluation.source
        (hstands _ hpick) (by rw [Pattern.length_alternativeStarts]; omega)
      rw [Pattern.length_alternativeStarts] at hstart hstep
      have hnth := follows_nth hstands hmention hscale alternatives (offset + 3)
        (offset + Pattern.codeSize definitions (.choice alternatives))
        (by simp only [Pattern.codeSize]; omega)
        (evaluation.draw alternatives.length).2 hbetween hcode _ start hstart
      refine (hnth.head hstep).mono (mul_add_one_le hscale ?_)
      simp only [Pattern.codeSize]
      omega
  | optional body =>
      obtain ⟨hpick, hcode⟩ := List.cons_subset.mp hcode
      have hbody := follows_pattern hstands hmention hscale body (offset + 3) (evaluation.draw 2).2
        hfault hcode
      exact follows_optional hstands hscale hpick hbody

theorem follows_each [LawfulDraw σ]
    (hstands : ∀ site ∈ sites, site.2.StandsAt code startOf site.1)
    (hmention : FollowsMention code sites definitions returns scale mention)
    (hscale : 0 < scale) (parts : List Pattern) (offset : Nat) (evaluation : Evaluation σ)
    (hfault : Pattern.faultEach definitions parts offset = none)
    (hcode : placed offset (Pattern.instructionsEach definitions parts offset) ⊆ sites) :
    Follows code (Pattern.codeSizes definitions parts * scale) returns offset
      (offset + Pattern.codeSizes definitions parts) evaluation
      (Pattern.evaluateEach mention parts evaluation) := by
  match parts with
  | [] =>
      simp only [Pattern.codeSizes, Nat.zero_mul]
      exact .refl
  | part :: parts =>
      obtain ⟨hpart, hparts⟩ := Option.or_eq_none_iff.mp hfault
      rw [Pattern.instructionsEach, placed_append, List.append_subset,
        Pattern.span_instructions] at hcode
      simp only [Pattern.codeSizes, Pattern.evaluateEach, Nat.add_mul, ← Nat.add_assoc]
      exact (follows_pattern hstands hmention hscale part offset evaluation hpart hcode.1).bind _
        fun next _ => follows_each hstands hmention hscale parts _ next hparts hcode.2

theorem follows_nth [LawfulDraw σ]
    (hstands : ∀ site ∈ sites, site.2.StandsAt code startOf site.1)
    (hmention : FollowsMention code sites definitions returns scale mention)
    (hscale : 0 < scale) (alternatives : List Pattern) (offset stop : Nat)
    (hstop : stop = offset + Pattern.codeSizes definitions alternatives +
      3 * (alternatives.length - 1))
    (evaluation : Evaluation σ)
    (hfault : Pattern.faultBetween definitions alternatives offset = none)
    (hcode : placed offset
      (Pattern.instructionsBetween definitions stop alternatives offset) ⊆ sites)
    (index start : Nat)
    (hstart : (Pattern.alternativeStarts definitions alternatives offset)[index]? = some start) :
    Follows code ((Pattern.codeSizes definitions alternatives +
        3 * (alternatives.length - 1)) * scale) returns start stop evaluation
      (Pattern.evaluateNth mention alternatives index evaluation) := by
  match alternatives with
  | [] => simp [Pattern.alternativeStarts] at hstart
  | [last] =>
      obtain ⟨hlast, -⟩ := Option.or_eq_none_iff.mp hfault
      cases index with
      | succ index => contradiction
      | zero =>
          cases hstart
          have hpattern := follows_pattern hstands hmention hscale last offset evaluation
            hlast hcode
          simpa [Pattern.codeSizes, Pattern.evaluateNth, hstop] using hpattern
  | alternative :: next :: others =>
      obtain ⟨halternative, hothers⟩ := Option.or_eq_none_iff.mp hfault
      rw [Pattern.instructionsBetween, placed_append, placed, List.append_subset,
        List.cons_subset, Pattern.span_instructions] at hcode
      obtain ⟨hfirst, hjump, hrest⟩ := hcode
      simp only [Pattern.codeSizes, List.length_cons] at hstop ⊢
      cases index with
      | zero =>
          cases hstart
          have hpattern := follows_pattern hstands hmention hscale alternative offset evaluation
            halternative hfirst
          have htail := hpattern.tail fun output source =>
            step_jump returns output source (hstands _ hjump)
          exact htail.mono (mul_add_one_le hscale (by omega))
      | succ index =>
          have hnth := follows_nth hstands hmention hscale (next :: others)
            (offset + alternative.codeSize definitions + 3) stop
            (by simp only [Pattern.codeSizes, List.length_cons]; omega)
            evaluation hothers hrest index start hstart
          refine hnth.mono (Nat.mul_le_mul_right scale ?_)
          simp only [Pattern.codeSizes, List.length_cons]
          omega

end

end

end Machine

end Wordmill
