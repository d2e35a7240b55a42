/-!
A cursor over text with one character of lookahead.  Every operation returns
the cursor that follows it, so an earlier position stays usable.
-/

namespace Wordmill

structure Cursor where
  rest : List Char
  deriving DecidableEq, Repr

namespace Cursor

def atEnd (cursor : Cursor) : Bool := cursor.rest.isEmpty

def peek (cursor : Cursor) : Option Char := cursor.rest.head?

/-- At the end the cursor stays where it is. -/
def next (cursor : Cursor) : Option Char × Cursor :=
  (cursor.peek, ⟨cursor.rest.tail⟩)

def isAt (set : List Char) (cursor : Cursor) : Bool :=
  cursor.peek.any set.contains

/-- Pass the next character if it is one of `set`. -/
def skip (set : List Char) (cursor : Cursor) : Bool × Cursor :=
  if cursor.isAt set then (true, cursor.next.2) else (false, cursor)

/--
Take the characters in front of the first one in `stop`, or all of them.
Taking nothing is `none`.
-/
def takeUntil (stop : List Char) (cursor : Cursor) : Option (List Char) × Cursor :=
  let taken := cursor.rest.takeWhile fun c => !stop.contains c
  (if taken.isEmpty then none else some taken,
    ⟨cursor.rest.dropWhile fun c => !stop.contains c⟩)

end Cursor

end Wordmill
