import Mathlib.Data.List.Chain
import Wordmill.Pattern.Reader

/-!
# Writing patterns as text

The patterns that the grammar of pattern text describes, and the text of each of
them.  Brackets are written where the grammar asks for them: around a sequence
within a sequence and around what may be left out.
-/

namespace Wordmill

namespace Bracket

def opening : Bracket → Char
  | .round => '('
  | .square => '['

def closing : Bracket → Char
  | .round => ')'
  | .square => ']'

end Bracket

namespace Pattern

/-- Text without delimiters, or quoted text without a quote. -/
inductive IsAtom : Pattern → Prop
  | text {chars : List Char} : chars ≠ [] → (∀ c ∈ chars, isDelimiter c = false) →
      IsAtom (.text chars)
  | quoted {chars : List Char} : chars ≠ [] → '"' ∉ chars → IsAtom (.quoted chars)

def isText : Pattern → Bool
  | .text _ => true
  | _ => false

def startsWithText : Pattern → Bool
  | .choice (first :: _) => first.isText
  | pattern => pattern.isText

def endsInText : Pattern → Bool
  | .choice (first :: others) => (others.getLastD first).isText
  | pattern => pattern.isText

/-- Text next to text would be read as one. -/
def Apart (first second : Pattern) : Prop :=
  first.endsInText = true → second.startsWithText = false

mutual

inductive Normal : Pattern → Prop
  | sequence {groups : List Pattern} : groups ≠ [] → (∀ group ∈ groups, IsGroup group) →
      groups.IsChain Apart → Normal (.sequence groups)

inductive IsGroup : Pattern → Prop
  | atom {pattern : Pattern} : IsAtom pattern → IsGroup pattern
  | choice {alternatives : List Pattern} : 2 ≤ alternatives.length →
      (∀ alternative ∈ alternatives, IsAtom alternative) → IsGroup (.choice alternatives)
  | optional {body : Pattern} : Normal body → IsGroup (.optional body)
  | nested {pattern : Pattern} : Normal pattern → IsGroup pattern

end

/-! ## The text of a pattern -/

/-- A group that is a sequence stands in square brackets. -/
def inBrackets (group : Pattern) (content : List Char) : List Char :=
  match group with
  | .sequence _ => '[' :: (content ++ [']'])
  | _ => content

mutual

/-- A sequence is written without brackets of its own. -/
def render : Pattern → List Char
  | .sequence groups => renderEach groups
  | .text chars => chars
  | .quoted chars => '"' :: (chars ++ ['"'])
  | .choice alternatives => renderChoice alternatives
  | .optional body => '(' :: (render body ++ [')'])

def renderEach : List Pattern → List Char
  | [] => []
  | group :: groups => inBrackets group (render group) ++ renderEach groups

def renderChoice : List Pattern → List Char
  | [] => []
  | [last] => render last
  | alternative :: next :: others => render alternative ++ '/' :: renderChoice (next :: others)

end

def renderGroup (group : Pattern) : List Char := inBrackets group (render group)

/-! ## Nesting -/

/-- The brackets that a group adds to those of its content. -/
def squareBrackets : Pattern → Nat
  | .sequence _ => 1
  | _ => 0

mutual

def nesting : Pattern → Nat
  | .sequence groups => nestingEach groups
  | .optional body => nesting body + 1
  | .text _ | .quoted _ | .choice _ => 0

def nestingEach : List Pattern → Nat
  | [] => 0
  | group :: groups => max (nesting group + group.squareBrackets) (nestingEach groups)

end

def groupNesting (group : Pattern) : Nat := nesting group + group.squareBrackets

theorem nestingEach_le_iff {groups : List Pattern} {n : Nat} :
    nestingEach groups ≤ n ↔ ∀ group ∈ groups, group.groupNesting ≤ n := by
  induction groups with
  | nil => simp [nestingEach]
  | cons group groups ih =>
      rw [nestingEach, Nat.max_le, List.forall_mem_cons, ih]
      rfl

private theorem renderEach_append (front back : List Pattern) :
    renderEach (front ++ back) = renderEach front ++ renderEach back := by
  induction front with
  | nil => rfl
  | cons group front ih => simp [renderEach, ih]

theorem renderEach_concat (groups : List Pattern) (group : Pattern) :
    renderEach (groups ++ [group]) = renderEach groups ++ renderGroup group := by
  rw [renderEach_append]
  simp [renderEach, renderGroup]

end Pattern

end Wordmill
