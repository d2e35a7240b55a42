/-!
Sets of characters given by ranges of code points.
-/

namespace Wordmill.Text

/--
Whether `c` lies in one of `ranges`, each a first and a last code point, in
ascending order.  The first range that does not end before `c` decides.
-/
def inRanges (ranges : List (Nat × Nat)) (c : Char) : Bool :=
  match ranges.find? fun range => c.toNat ≤ range.2 with
  | some range => range.1 ≤ c.toNat
  | none => false

end Wordmill.Text
