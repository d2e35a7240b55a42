/-!
Patterns: what a word may be made of.
-/

namespace Wordmill

/--
A character of `text` may name a definition; those of `quoted` never do.  One
alternative of a `choice` is taken, and the body of an `optional` may be left out.
-/
inductive Pattern where
  | sequence (parts : List Pattern)
  | text (chars : List Char)
  | quoted (chars : List Char)
  | choice (alternatives : List Pattern)
  | optional (body : Pattern)
  deriving Repr, Inhabited

namespace Pattern

/-- Nothing to choose from or to write at this node; its children are not looked at. -/
def isEmpty : Pattern → Bool
  | .sequence parts => parts.isEmpty
  | .text chars => chars.isEmpty
  | .quoted chars => chars.isEmpty
  | .choice alternatives => alternatives.length < 2
  | .optional _ => false

end Pattern

end Wordmill
