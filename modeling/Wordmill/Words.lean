import Std.Data.HashSet
import Wordmill.Bytecode.Assembler
import Wordmill.Bytecode.Machine
import Wordmill.Grammar.Basic
import Wordmill.Options.Basic

/-!
Making words from a grammar.  The grammar is compiled once, and the machine runs
once for each syllable of each word.
-/

namespace Wordmill

inductive WordError where
  | pattern (error : SyntaxError)
  | compile (error : CompileError)
  | syllableRange (least greatest : UInt32)
  deriving DecidableEq, Repr

def WordError.message : WordError → String
  | .pattern error => "syntax error: " ++ error.message
  | .compile error => "compile error: " ++ error.message
  | .syllableRange least greatest =>
      "invalid syllable range " ++ toString least.toNat ++ "..=" ++ toString greatest.toNat

/-- A call that comes to nothing: its caller gets an error, or a panic ends the whole run. -/
inductive Failure (ε : Type) where
  | error (error : ε)
  | panic
  deriving DecidableEq, Repr

namespace Grammar

/-- The root is read before the definitions. -/
def compile (grammar : Grammar) : Except WordError Bytecode :=
  match Pattern.parse grammar.source with
  | .error e => .error (.pattern e)
  | .ok root =>
      match grammar.patterns with
      | .error e => .error (.pattern e)
      | .ok definitions =>
          match Wordmill.compile root definitions with
          | .error e => .error (.compile e)
          | .ok code => .ok code

end Grammar

namespace Words

variable {σ : Type}

/-- Call `next` a number of times and keep the answers in order. -/
def collect {α : Type} (next : σ → α × σ) : Nat → σ → Array α → Array α × σ
  | 0, source, answers => (answers, source)
  | n + 1, source, answers =>
      let (answer, source) := next source
      collect next n source (answers.push answer)

def count [Draw σ] (syllables : Syllables) (source : σ) : Nat × σ :=
  match syllables with
  | .fixed count => (count.toNat, source)
  | .range least greatest => Draw.between least.toNat greatest.toNat source

def word [Draw σ] (code : Bytecode) (options : Options) (source : σ) : String × σ :=
  let (count, source) := count options.syllables source
  let (syllables, source) := collect (Machine.run code) count source #[]
  (options.separator.intercalate syllables.toList, source)

def withoutRepeats (words : List String) : List String :=
  let start : Std.HashSet String × Array String := (∅, #[])
  let (_, kept) := words.foldl
    (fun (seen, kept) word =>
      if seen.contains word then (seen, kept) else (seen.insert word, kept.push word)) start
  kept.toList

/-- A list of words takes 24 bytes for each in a single block of less than `2 ^ 63` bytes. -/
def maxWords : Nat := (Nat.pow 2 63 - 1) / 24

def checkSyllables (syllables : Syllables) : Except WordError Unit :=
  match syllables with
  | .fixed _ => .ok ()
  | .range least greatest =>
      if greatest < least then .error (.syllableRange least greatest) else .ok ()

/--
The source is not touched unless there are words to make.  The list of words is
given its whole length at once, and there is a panic if it cannot be that long.
-/
def generate [Draw σ] (grammar : Grammar) (options : Options) (source : σ) :
    Except (Failure WordError) (List String) × σ :=
  match checkSyllables options.syllables with
  | .error e => (.error (.error e), source)
  | .ok () =>
      match grammar.compile with
      | .error e => (.error (.error e), source)
      | .ok code =>
          if maxWords < options.words.toNat then (.error .panic, source)
          else
            let (words, source) := collect (word code options) options.words.toNat source #[]
            let words := words.toList
            (.ok (if options.duplicates then words else withoutRepeats words), source)

end Words

inductive Product where
  | words (words : List String)
  | bytecode (code : Bytecode)
  deriving DecidableEq, Repr

/-- Without words to make, the options play no part. -/
def Grammar.produce {σ : Type} [Draw σ] (grammar : Grammar) (options : Options)
    (bytecodeOnly : Bool) (source : σ) : Except (Failure WordError) Product × σ :=
  if bytecodeOnly then
    (match grammar.compile with
      | .error e => .error (.error e)
      | .ok code => .ok (.bytecode code), source)
  else
    match Words.generate grammar options source with
    | (.error failure, source) => (.error failure, source)
    | (.ok words, source) => (.ok (.words words), source)

end Wordmill
