import Wordmill.Pattern.Basic

/-!
Reading pattern text.

    pattern  =  group+
    group    =  "(" pattern ")"  |  "[" pattern "]"  |  choice
    choice   =  atom ("/" atom)*
    atom     =  text  |  quote text-without-quotes quote

The reader goes through the text once, one character at a time, and keeps the
groups read so far together with the brackets that are still open.  The quote
that ends the text may be missing.
-/

namespace Wordmill

inductive Bracket where
  | round
  | square
  deriving DecidableEq, Repr

inductive SyntaxError where
  | unexpectedEnd
  | unexpected (c : Char)
  | unclosed (bracket : Bracket)
  | emptyQuotes
  | nestingTooDeep
  deriving DecidableEq, Repr

def SyntaxError.message : SyntaxError → String
  | .unexpectedEnd => "unexpected end of input"
  | .unexpected c => "unexpected \"" ++ String.singleton c ++ "\""
  | .unclosed .round => "unclosed parenthesis"
  | .unclosed .square => "unclosed brackets"
  | .emptyQuotes => "empty quotes"
  | .nestingTooDeep => "nesting too deep"

namespace Pattern

def maxNesting : Nat := 256

def isDelimiter (c : Char) : Bool := "[]()\"/".toList.contains c

/--
Where the reader stands in the choice being read, if there is one.  Finished
alternatives and characters are kept newest first.
-/
inductive Place where
  | betweenGroups
  | afterSlash (done : List Pattern)
  | inText (done : List Pattern) (chars : List Char)
  | inQuotes (done : List Pattern) (chars : List Char)
  | afterQuotes (done : List Pattern) (chars : List Char)
  deriving Repr

/-- An open bracket with the groups that stand before it, newest first. -/
structure Opening where
  bracket : Bracket
  before : List Pattern
  deriving Repr

/-- The groups of the innermost open bracket and the open brackets, both newest first. -/
structure Reading where
  groups : List Pattern
  openings : List Opening
  place : Place
  deriving Repr

namespace Reading

def start : Reading := ⟨[], [], .betweenGroups⟩

/-- A choice of one is that one. -/
def groupOf (done : List Pattern) (last : Pattern) : Pattern :=
  if done.isEmpty then last else .choice (last :: done).reverse

def endGroup (r : Reading) (done : List Pattern) (last : Pattern) : Reading :=
  { r with groups := groupOf done last :: r.groups, place := .betweenGroups }

def openBracket (r : Reading) (bracket : Bracket) : Except SyntaxError Reading :=
  if r.openings.length = maxNesting then .error .nestingTooDeep
  else .ok ⟨[], ⟨bracket, r.groups⟩ :: r.openings, .betweenGroups⟩

/-- Square brackets only group; round ones make their content optional. -/
def enclosed (bracket : Bracket) (groups : List Pattern) : Pattern :=
  match bracket with
  | .round => .optional (.sequence groups.reverse)
  | .square => .sequence groups.reverse

/-- An open bracket has to hold a group, and only its own counterpart closes it. -/
def closeBracket (r : Reading) (c : Char) (bracket : Bracket) : Except SyntaxError Reading :=
  if r.groups.isEmpty then .error (.unexpected c)
  else match r.openings with
    | [] => .error (.unexpected c)
    | opening :: openings =>
        if opening.bracket = bracket then
          .ok ⟨enclosed bracket r.groups :: opening.before, openings, .betweenGroups⟩
        else .error (.unclosed opening.bracket)

/-- Read `c` where a group may start or the innermost bracket may end. -/
def startGroup (r : Reading) (c : Char) : Except SyntaxError Reading :=
  match c with
  | '(' => r.openBracket .round
  | '[' => r.openBracket .square
  | ')' => r.closeBracket c .round
  | ']' => r.closeBracket c .square
  | '/' => .error (.unexpected c)
  | '"' => .ok { r with place := .inQuotes [] [] }
  | c => .ok { r with place := .inText [] [c] }

def read (r : Reading) (c : Char) : Except SyntaxError Reading :=
  match r.place with
  | .betweenGroups => r.startGroup c
  | .afterSlash done =>
      if c = '"' then .ok { r with place := .inQuotes done [] }
      else if isDelimiter c then .error (.unexpected c)
      else .ok { r with place := .inText done [c] }
  | .inText done chars =>
      if c = '/' then .ok { r with place := .afterSlash (.text chars.reverse :: done) }
      else if isDelimiter c then (r.endGroup done (.text chars.reverse)).startGroup c
      else .ok { r with place := .inText done (c :: chars) }
  | .inQuotes done chars =>
      if c ≠ '"' then .ok { r with place := .inQuotes done (c :: chars) }
      else if chars.isEmpty then .error .emptyQuotes
      else .ok { r with place := .afterQuotes done chars }
  | .afterQuotes done chars =>
      if c = '/' then .ok { r with place := .afterSlash (.quoted chars.reverse :: done) }
      else (r.endGroup done (.quoted chars.reverse)).startGroup c

/-- Every bracket has to be closed by now. -/
def whole (r : Reading) : Except SyntaxError Pattern :=
  match r.openings with
  | [] => .ok (.sequence r.groups.reverse)
  | opening :: _ => .error (.unclosed opening.bracket)

def finish (r : Reading) : Except SyntaxError Pattern :=
  match r.place with
  | .betweenGroups => if r.groups.isEmpty then .error .unexpectedEnd else r.whole
  | .afterSlash _ => .error .unexpectedEnd
  | .inText done chars => (r.endGroup done (.text chars.reverse)).whole
  | .inQuotes done chars =>
      if chars.isEmpty then .error .emptyQuotes
      else (r.endGroup done (.quoted chars.reverse)).whole
  | .afterQuotes done chars => (r.endGroup done (.quoted chars.reverse)).whole

/-- Read on until the first error. -/
def readAll (r : Reading) : List Char → Except SyntaxError Reading
  | [] => .ok r
  | c :: rest =>
      match r.read c with
      | .error e => .error e
      | .ok next => next.readAll rest

theorem readAll_append (r : Reading) (front back : List Char) :
    r.readAll (front ++ back) =
      match r.readAll front with
      | .error e => .error e
      | .ok next => next.readAll back := by
  induction front generalizing r with
  | nil => rfl
  | cons c front ih =>
      simp only [List.cons_append, readAll]
      cases r.read c with
      | error e => rfl
      | ok next => exact ih next

end Reading

def parse (source : List Char) : Except SyntaxError Pattern :=
  match Reading.start.readAll source with
  | .error e => .error e
  | .ok r => r.finish

end Pattern

end Wordmill
