import Wordmill.Text.Extending
import Wordmill.Text.Hex
import Wordmill.Text.Ignorable
import Wordmill.Text.Unprintable

/-!
Quoted text for listings.  Quotes, backslashes and the usual control characters
have an escape of their own; every other character without a visible form, every
mark that would attach to the character before it, and every character that a
display may leave out is written by its code point.  An apostrophe stands for
itself.
-/

namespace Wordmill.Text

def escape (c : Char) : List Char :=
  match c with
  | '\x00' => ['\\', '0']
  | '\t' => ['\\', 't']
  | '\r' => ['\\', 'r']
  | '\n' => ['\\', 'n']
  | '"' => ['\\', '"']
  | '\\' => ['\\', '\\']
  | c =>
      if isExtending c || isUnprintable c || isIgnorable c then
        ['\\', 'u', '\x7b'] ++ hex 1 c.toNat ++ ['\x7d']
      else [c]

def quote (text : List Char) : List Char := '"' :: text.flatMap escape ++ ['"']

end Wordmill.Text
