import Wordmill.Json.Value

/-!
# The grammar of JSON text

Which texts are values, however they are spelled: with blanks between the tokens,
with any escapes in the strings, and nested as deep as one likes.  Strings are
spelled in pieces first and the pieces stand for characters then, because a
string may well hold half of a surrogate pair as long as nobody wants to know
what it means.
-/

namespace Wordmill.Json

universe u

def Blank (text : List Char) : Prop := ∀ c ∈ text, c ∈ [' ', '\n', '\t', '\r']

theorem blank_nil : Blank [] := by simp [Blank]

/-! ## Strings -/

/-- What may follow a backslash, and what it means there. -/
def escapes : List (Char × Char) :=
  [('"', '"'), ('\\', '\\'), ('/', '/'), ('b', '\x08'), ('f', '\x0c'), ('n', '\n'),
    ('r', '\r'), ('t', '\t')]

/-- A hexadecimal digit in either case. -/
def IsHex (c : Char) (value : Nat) : Prop :=
  value < 16 ∧ (c = value.digitChar ∨ c = value.digitChar.toUpper)

instance (c : Char) (value : Nat) : Decidable (IsHex c value) :=
  inferInstanceAs (Decidable (_ ∧ _))

/-- What stands between the quotes, and the pieces it is made of. -/
inductive Spells : List Char → List Piece → Prop where
  | nil : Spells [] []
  | char {c : Char} {body : List Char} {pieces : List Piece} (hcontrol : ¬ c < ' ')
      (hquote : c ≠ '"') (hbackslash : c ≠ '\\') (hbody : Spells body pieces) :
      Spells (c :: body) (.char c :: pieces)
  | escape {c meant : Char} {body : List Char} {pieces : List Piece}
      (hescape : (c, meant) ∈ escapes) (hbody : Spells body pieces) :
      Spells ('\\' :: c :: body) (.char meant :: pieces)
  | codeUnit {a b c d : Char} {w x y z : Nat} {body : List Char} {pieces : List Piece}
      (ha : IsHex a w) (hb : IsHex b x) (hc : IsHex c y) (hd : IsHex d z)
      (hbody : Spells body pieces) :
      Spells ('\\' :: 'u' :: a :: b :: c :: d :: body)
        (.codeUnit (((w * 16 + x) * 16 + y) * 16 + z) :: pieces)

/--
The characters that pieces stand for.  A character is its own code unit, or above
U+FFFF the pair of surrogates that holds the upper and the lower ten bits.
-/
inductive Means : List Piece → List Char → Prop where
  | nil : Means [] []
  | char {c : Char} {pieces : List Piece} {chars : List Char} (hpieces : Means pieces chars) :
      Means (.char c :: pieces) (c :: chars)
  | codeUnit {c : Char} {pieces : List Piece} {chars : List Char} (hc : c.toNat < 0x10000)
      (hpieces : Means pieces chars) : Means (.codeUnit c.toNat :: pieces) (c :: chars)
  | surrogates {c : Char} {pieces : List Piece} {chars : List Char} (hc : 0x10000 ≤ c.toNat)
      (hpieces : Means pieces chars) :
      Means (.codeUnit (0xD800 + (c.toNat - 0x10000) / 0x400) ::
        .codeUnit (0xDC00 + (c.toNat - 0x10000) % 0x400) :: pieces) (c :: chars)

/-- A string with its quotes, and the characters it stands for. -/
inductive Quotes : List Char → List Char → Prop where
  | intro {body chars : List Char} {pieces : List Piece} (hbody : Spells body pieces)
      (hpieces : Means pieces chars) : Quotes ('"' :: body ++ ['"']) chars

/-! ## Numbers -/

def AllDigits (digits : List Char) : Prop := ∀ c ∈ digits, c.isDigit

/-- Digits without a zero in front that has no meaning. -/
inductive IsWhole : List Char → Prop where
  | zero : IsWhole ['0']
  | digits {c : Char} {digits : List Char} (hc : c.isDigit) (hzero : c ≠ '0')
      (hdigits : AllDigits digits) : IsWhole (c :: digits)

inductive IsFraction : List Char → Prop where
  | none : IsFraction []
  | some {digits : List Char} (hsome : digits ≠ []) (hdigits : AllDigits digits) :
      IsFraction ('.' :: digits)

inductive IsExponent : List Char → Prop where
  | none : IsExponent []
  | some {mark : Char} {sign digits : List Char} (hmark : mark ∈ ['e', 'E'])
      (hsign : sign ∈ [[], ['+'], ['-']]) (hsome : digits ≠ []) (hdigits : AllDigits digits) :
      IsExponent (mark :: sign ++ digits)

inductive IsNumber : List Char → Prop where
  | intro {sign whole fraction exponent : List Char} (hsign : sign ∈ [[], ['-']])
      (hwhole : IsWhole whole) (hfraction : IsFraction fraction)
      (hexponent : IsExponent exponent) : IsNumber (sign ++ whole ++ fraction ++ exponent)

/-! ## Values -/

inductive Phrase where
  | value
  | element
  | elements
  | member
  | members

/-- The texts of a phrase.  An element is a value with the blanks around it. -/
inductive Derives : Phrase → List Char → Prop where
  | null : Derives .value "null".toList
  | true : Derives .value "true".toList
  | false : Derives .value "false".toList
  | number {text : List Char} (htext : IsNumber text) : Derives .value text
  | text {body : List Char} {pieces : List Piece} (hbody : Spells body pieces) :
      Derives .value ('"' :: body ++ ['"'])
  | emptyArray {blank : List Char} (hblank : Blank blank) : Derives .value ('[' :: blank ++ [']'])
  | array {elements : List Char} (helements : Derives .elements elements) :
      Derives .value ('[' :: elements ++ [']'])
  | emptyObject {blank : List Char} (hblank : Blank blank) :
      Derives .value ('\x7b' :: blank ++ ['\x7d'])
  | object {members : List Char} (hmembers : Derives .members members) :
      Derives .value ('\x7b' :: members ++ ['\x7d'])
  | element {before value after : List Char} (hbefore : Blank before)
      (hvalue : Derives .value value) (hafter : Blank after) :
      Derives .element (before ++ value ++ after)
  | lastElement {element : List Char} (helement : Derives .element element) :
      Derives .elements element
  | moreElements {element elements : List Char} (helement : Derives .element element)
      (helements : Derives .elements elements) : Derives .elements (element ++ ',' :: elements)
  | member {before key middle element : List Char} {pieces : List Piece} (hbefore : Blank before)
      (hkey : Spells key pieces) (hmiddle : Blank middle) (helement : Derives .element element) :
      Derives .member (before ++ '"' :: key ++ '"' :: middle ++ ':' :: element)
  | lastMember {member : List Char} (hmember : Derives .member member) : Derives .members member
  | moreMembers {member members : List Char} (hmember : Derives .member member)
      (hmembers : Derives .members members) : Derives .members (member ++ ',' :: members)

/-- The texts of an object with one member for each entry, in their order. -/
inductive IsMembers {α : Type u} (IsMember : α → List Char → Prop) : List α → List Char → Prop where
  | last {entry : α} {member : List Char} (hmember : IsMember entry member) :
      IsMembers IsMember [entry] member
  | more {entry : α} {entries : List α} {member members : List Char}
      (hmember : IsMember entry member) (hmembers : IsMembers IsMember entries members) :
      IsMembers IsMember (entry :: entries) (member ++ ',' :: members)

inductive IsObject {α : Type u} (IsMember : α → List Char → Prop) : List α → List Char → Prop where
  | empty {blank : List Char} (hblank : Blank blank) :
      IsObject IsMember [] ('\x7b' :: blank ++ ['\x7d'])
  | members {entries : List α} {members : List Char}
      (hmembers : IsMembers IsMember entries members) :
      IsObject IsMember entries ('\x7b' :: members ++ ['\x7d'])

/-- A name, and behind its colon a text for the value. -/
inductive Names (name : List Char) (IsValue : List Char → Prop) : List Char → Prop where
  | intro {before key middle between value after : List Char} (hbefore : Blank before)
      (hkey : Quotes key name) (hmiddle : Blank middle) (hbetween : Blank between)
      (hvalue : IsValue value) (hafter : Blank after) :
      Names name IsValue (before ++ key ++ middle ++ ':' :: (between ++ value ++ after))

end Wordmill.Json
