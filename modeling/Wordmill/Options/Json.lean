import Wordmill.Json.Declared
import Wordmill.Options.Basic

/-!
Options as JSON: the declarations.  A number of syllables is written as it is,
and a range as an object of its bounds; every setting may be left out.
-/

namespace Wordmill

open Json (Declared Field Kind Scalar Variant)

namespace Syllables

def bounds : List (Field Scalar (UInt32 × UInt32)) :=
  [⟨"min", .u32, Prod.fst, fun least bounds => (least, bounds.2)⟩,
    ⟨"max", .u32, Prod.snd, fun greatest bounds => (bounds.1, greatest)⟩]

def fixed? : Syllables → Option UInt32
  | .fixed count => some count
  | .range .. => none

def range? : Syllables → Option (UInt32 × UInt32)
  | .fixed _ => none
  | .range least greatest => some (least, greatest)

def variants : List (Variant Syllables) :=
  [.scalar .u32 .fixed fixed?,
    .record bounds (0, 0) (fun (least, greatest) => .range least greatest) range?]

end Syllables

namespace Options

inductive Setting where
  | words
  | syllables
  | separator
  | duplicates
  deriving DecidableEq, Repr

namespace Setting

def all : List Setting := [.words, .syllables, .separator, .duplicates]

def field : Setting → Field Kind Options
  | .words =>
      ⟨"words", .scalar .u64, Options.words, fun value options => { options with words := value }⟩
  | .syllables =>
      ⟨"syllables", .untagged Syllables.variants, Options.syllables,
        fun value options => { options with syllables := value }⟩
  | .separator =>
      ⟨"syllable_separator", .scalar .string, Options.separator,
        fun value options => { options with separator := value }⟩
  | .duplicates =>
      ⟨"duplicates", .scalar .bool, Options.duplicates,
        fun value options => { options with duplicates := value }⟩

end Setting

def declared : Declared Options := .record (Setting.all.map Setting.field) default

end Options

end Wordmill
