import Wordmill.Dictionary
import Wordmill.Pattern.Reader

/-!
Grammars: pattern text together with the definitions visible to it, each a
grammar of its own.
-/

namespace Wordmill

inductive Grammar where
  | mk (source : List Char) (definitions : List (Char × Grammar))
  deriving Repr, Inhabited

namespace Grammar

def source : Grammar → List Char
  | mk source _ => source

def definitions : Grammar → Dictionary Grammar
  | mk _ definitions => definitions

/--
Bring the definitions under `current`, then those under `pending`, then
everything nested in them into one dictionary.  Nested definitions are reached
from the greatest name down and before anything that was pending, and the first
definition reached under a name is the one that is kept and read.
-/
def gather (current : Dictionary Grammar) (pending : List (Dictionary Grammar))
    (found : Dictionary Pattern) : Except SyntaxError (Dictionary Pattern) :=
  match current, pending with
  | [], [] => .ok found
  | [], next :: pending => gather next pending found
  | (name, mk source nested) :: current, pending =>
      if found.hasName name then gather current (nested :: pending) found
      else match Pattern.parse source with
        | .error e => .error e
        | .ok pattern => gather current (nested :: pending) (found.insert name pattern)
termination_by sizeOf current + sizeOf pending

def patterns (grammar : Grammar) : Except SyntaxError (Dictionary Pattern) :=
  gather grammar.definitions [] []

end Grammar

end Wordmill
