import Wordmill.Grammar.Basic
import Wordmill.Grammar.Line

/-!
Loading a grammar file: any number of definitions and one root.  A definition
sees the names defined above it that occur in its source; the root sees those
defined anywhere.
-/

namespace Wordmill

inductive FileError where
  | missingRoot
  | severalRoots
  | invalidName (name : List Char)
  deriving DecidableEq, Repr

def FileError.message : FileError → String
  | .missingRoot => "missing root pattern"
  | .severalRoots => "more than one root pattern"
  | .invalidName name =>
      "reference name `" ++ String.ofList name ++ "` must be a single character"

namespace Grammar

def visible (source : List Char) (definitions : Dictionary Grammar) : Dictionary Grammar :=
  definitions.filter fun entry => source.contains entry.1

/-- The definitions so far, and the roots so far, newest first. -/
structure Loading where
  definitions : Dictionary Grammar
  roots : List (List Char)

namespace Loading

def addLine (loading : Loading) (line : List Char) : Except FileError Loading :=
  match Line.ofText line with
  | .ignored => .ok loading
  | .definition [name] source =>
      let grammar := Grammar.mk source (visible source loading.definitions)
      .ok { loading with definitions := loading.definitions.insert name grammar }
  | .definition name _ => .error (.invalidName name)
  | .root source => .ok { loading with roots := source :: loading.roots }

def addLines (loading : Loading) : List (List Char) → Except FileError Loading
  | [] => .ok loading
  | line :: lines =>
      match loading.addLine line with
      | .error e => .error e
      | .ok next => next.addLines lines

def finish (loading : Loading) : Except FileError Grammar :=
  match loading.roots with
  | [] => .error .missingRoot
  | [root] => .ok (Grammar.mk root (visible root loading.definitions))
  | _ => .error .severalRoots

end Loading

def load (text : List Char) : Except FileError Grammar :=
  match (Loading.mk [] []).addLines (Text.splitOn '\n' text) with
  | .error e => .error e
  | .ok loading => loading.finish

end Grammar

end Wordmill
