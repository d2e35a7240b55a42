import Wordmill.Bytecode.Listing
import Wordmill.Words

/-!
The written form of what was made: a block for each grammar, with a heading and
an empty line in between when there are several.
-/

namespace Wordmill

def Product.render (product : Product) (separator : String) : String :=
  match product with
  | .words made => separator.intercalate made ++ "\n"
  | .bytecode code => listing code

/-- The block of number `index` out of `total`, counted from zero. -/
def Report.block (name : String) (product : Product) (separator : String) (index total : Nat) :
    String :=
  let heading := if 1 < total then "--- " ++ name ++ "\n" else ""
  let gap := if 1 < total ∧ index + 1 ≠ total then "\n" else ""
  heading ++ product.render separator ++ gap

end Wordmill
