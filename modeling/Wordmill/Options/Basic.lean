import Wordmill.Text.Blank
import Wordmill.Text.Numeral

/-!
Options of a run: how many words, of how many syllables each, what stands
between the syllables, and whether repeated words stay.
-/

namespace Wordmill

inductive Syllables where
  | fixed (count : UInt32)
  | range (least greatest : UInt32)
  deriving DecidableEq, Repr

structure Options where
  words : UInt64
  syllables : Syllables
  separator : String
  duplicates : Bool
  deriving DecidableEq, Repr

def Options.default : Options := ⟨100, .fixed 1, "", false⟩

namespace Syllables

inductive ReadError where
  | number (error : Text.NumeralError)
  | shape
  deriving DecidableEq, Repr

def ReadError.message : ReadError → String
  | .number error => "invalid range argument: " ++ error.message
  | .shape => "invalid range argument"

def readCount (text : List Char) : Except ReadError UInt32 :=
  match Text.readNumeral 0xFFFFFFFF (Text.trim text) with
  | .ok n => .ok (UInt32.ofNat n)
  | .error e => .error (.number e)

/-- One number, or the two bounds of a range with a comma between them. -/
def ofText (text : List Char) : Except ReadError Syllables :=
  match Text.splitOn ',' text with
  | [count] =>
      match readCount count with
      | .ok n => .ok (.fixed n)
      | .error e => .error e
  | [least, greatest] =>
      match readCount least with
      | .error e => .error e
      | .ok least =>
          match readCount greatest with
          | .error e => .error e
          | .ok greatest => .ok (.range least greatest)
  | _ => .error .shape

end Syllables

end Wordmill
