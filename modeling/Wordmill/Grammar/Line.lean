import Wordmill.Text.Blank
import Wordmill.Text.Cursor

/-!
The lines of a grammar file.

    # a line of comment
    N = m/n
    C = p/t/k/N     # a definition with a comment
    (C)V            # the root
-/

namespace Wordmill.Grammar

inductive Line where
  | ignored
  | definition (name source : List Char)
  | root (source : List Char)
  deriving DecidableEq, Repr

/--
The name runs up to the first equals sign after at least one character, and the
source from there to the first `#`; there has to be something between the two.
-/
def definition? (line : List Char) : Option (List Char × List Char) :=
  let (first, cursor) := (Cursor.mk line).next
  let (more, cursor) := cursor.takeUntil ['=']
  let (defines, cursor) := cursor.skip ['=']
  let (source, _) := cursor.takeUntil ['#']
  if defines then
    source.map fun source => (Text.trim (first.toList ++ more.getD []), Text.trim source)
  else none

/-- A `#` with nothing behind it is no comment. -/
def withoutComment (line : List Char) : List Char :=
  match line.dropWhile (· ≠ '#') with
  | _ :: _ :: _ => Text.trimEnd (line.takeWhile (· ≠ '#'))
  | _ => line

def withoutReturn (line : List Char) : List Char :=
  if line.getLast? = some '\r' then line.dropLast else line

/-- A root keeps the blanks around it, except in front of a comment. -/
def Line.ofText (line : List Char) : Line :=
  match Text.trim line with
  | [] => .ignored
  | '#' :: _ => .ignored
  | stripped =>
      match definition? stripped with
      | some (name, source) => .definition name source
      | none => .root (withoutComment (withoutReturn line))

end Wordmill.Grammar
