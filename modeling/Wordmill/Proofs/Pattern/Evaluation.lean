import Wordmill.Bytecode.Machine
import Wordmill.Dictionary
import Wordmill.Pattern.Basic

/-!
# Evaluating patterns

What a pattern writes for the draws of a source, read off the pattern itself.
-/

namespace Wordmill

/-- What has been written, and the source after the draws so far. -/
structure Evaluation (σ : Type) where
  output : String
  source : σ
  deriving Repr

namespace Evaluation

variable {σ : Type}

def write (evaluation : Evaluation σ) (c : Char) : Evaluation σ :=
  ⟨evaluation.output.push c, evaluation.source⟩

def draw [Draw σ] (evaluation : Evaluation σ) (high : Nat) : Nat × Evaluation σ :=
  let (answer, source) := Draw.between 1 high evaluation.source
  (answer, ⟨evaluation.output, source⟩)

theorem foldl_write (chars : List Char) (evaluation : Evaluation σ) :
    chars.foldl write evaluation =
      ⟨chars.foldl String.push evaluation.output, evaluation.source⟩ := by
  induction chars generalizing evaluation with
  | nil => rfl
  | cons c chars ih => exact ih (evaluation.write c)

end Evaluation

/-- An evaluation that goes on or, as the error, one that is stopped for good. -/
abbrev Progress (σ : Type) := Except (Evaluation σ) (Evaluation σ)

/-- Both keep what has been written. -/
def Progress.latest {σ : Type} : Progress σ → Evaluation σ
  | .ok evaluation => evaluation
  | .error stopped => stopped

namespace Pattern

variable {σ : Type} [Draw σ]

section

/- What a character of unquoted text does. -/
variable (mention : Char → Evaluation σ → Progress σ)

def evaluateText : List Char → Evaluation σ → Progress σ
  | [], evaluation => .ok evaluation
  | c :: chars, evaluation => (mention c evaluation).bind (evaluateText chars)

mutual

def evaluateWith : Pattern → Evaluation σ → Progress σ
  | .sequence parts, evaluation => evaluateEach parts evaluation
  | .text chars, evaluation => evaluateText mention chars evaluation
  | .quoted chars, evaluation => .ok (chars.foldl Evaluation.write evaluation)
  | .choice alternatives, evaluation =>
      let (answer, evaluation) := evaluation.draw alternatives.length
      evaluateNth alternatives (answer - 1) evaluation
  | .optional body, evaluation =>
      let (answer, evaluation) := evaluation.draw 2
      if answer = 1 then evaluateWith body evaluation else .ok evaluation

def evaluateEach : List Pattern → Evaluation σ → Progress σ
  | [], evaluation => .ok evaluation
  | part :: parts, evaluation => (evaluateWith part evaluation).bind (evaluateEach parts)

/-- The alternative at `index`, the first one being at zero. -/
def evaluateNth : List Pattern → Nat → Evaluation σ → Progress σ
  | [], _, evaluation => .ok evaluation
  | alternative :: _, 0, evaluation => evaluateWith alternative evaluation
  | _ :: others, index + 1, evaluation => evaluateNth others index evaluation

end

theorem evaluateNth_of_getElem? {alternatives : List Pattern} {alternative : Pattern}
    {index : Nat} (h : alternatives[index]? = some alternative) :
    evaluateNth mention alternatives index = evaluateWith mention alternative := by
  induction alternatives generalizing index with
  | nil => simp at h
  | cons first alternatives ih =>
      cases index with
      | zero =>
          cases h
          rfl
      | succ index => exact ih h

end

/--
A character that names a definition stands for it, any other for itself.  When
no more calls are left, to meet such a name ends the whole evaluation.
-/
def mention (definitions : Dictionary Pattern) (callsLeft : Nat) (c : Char)
    (evaluation : Evaluation σ) : Progress σ :=
  match definitions.find? c with
  | none => .ok (evaluation.write c)
  | some body =>
      match callsLeft with
      | 0 => .error evaluation
      | callsLeft + 1 => body.evaluateWith (mention definitions callsLeft) evaluation

theorem mention_of_none {definitions : Dictionary Pattern} {c : Char}
    (h : definitions.find? c = none) (callsLeft : Nat) :
    mention definitions callsLeft c =
      fun evaluation : Evaluation σ => .ok (evaluation.write c) := by
  funext evaluation
  cases callsLeft <;> simp only [mention, h]

theorem mention_of_some {definitions : Dictionary Pattern} {c : Char} {body : Pattern}
    (h : definitions.find? c = some body) (callsLeft : Nat) :
    mention (σ := σ) definitions (callsLeft + 1) c =
      body.evaluateWith (mention definitions callsLeft) := by
  funext evaluation
  simp only [mention, h]

def evaluate (definitions : Dictionary Pattern) (pattern : Pattern) (source : σ) : Progress σ :=
  pattern.evaluateWith (mention definitions Machine.maxCalls) ⟨"", source⟩

end Pattern

end Wordmill
