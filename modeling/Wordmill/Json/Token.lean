import Wordmill.Json.Number
import Wordmill.Text.Hex
import Wordmill.Text.Numeral

/-!
The tokens of JSON text.  Scanning never fails: a token that does not come to
its proper end is marked and is the last one.
-/

namespace Wordmill.Json

/-- What is wrong with a text: its grammar, its early end, or a value of another kind. -/
inductive Fault where
  | malformed
  | unexpectedEnd
  | mismatch
  deriving DecidableEq, Repr

/-- How a token ends: as it should, with the text, or at a character that does not belong there. -/
inductive Ending where
  | complete
  | cutShort
  | broken
  deriving DecidableEq, Repr

/-- A part of a string: a character, or a 16-bit unit given by its number. -/
inductive Piece where
  | char (c : Char)
  | codeUnit (value : Nat)
  deriving DecidableEq, Repr

inductive Token where
  | openBrace
  | closeBrace
  | openBracket
  | closeBracket
  | comma
  | colon
  | null
  | bool (value : Bool)
  | number (value : Number)
  | text (pieces : List Piece) (ending : Ending)
  | partialNumber (ending : Ending)
  | partialWord (ending : Ending)
  | stray
  deriving DecidableEq, Repr

def isSpace (c : Char) : Bool := c == ' ' || c == '\n' || c == '\t' || c == '\r'

def isDigit (c : Char) : Bool := (Text.digitValue? c).isSome

def scanDigits (text : List Char) : List Nat × List Char :=
  ((text.takeWhile isDigit).filterMap Text.digitValue?, text.dropWhile isDigit)

/-- How a token ends that needs one more character than `text` offers. -/
def endingAt (text : List Char) : Ending := if text.isEmpty then .cutShort else .broken

/-! ## Numbers -/

/-- No further digit may follow a leading zero. -/
def scanWhole (text : List Char) : Except Ending (List Nat × List Char) :=
  match scanDigits text with
  | ([], rest) => .error (endingAt rest)
  | (0 :: _ :: _, _) => .error .broken
  | scanned => .ok scanned

def scanFraction (text : List Char) : Except Ending (List Nat × List Char) :=
  match text with
  | '.' :: rest =>
      match scanDigits rest with
      | ([], rest) => .error (endingAt rest)
      | scanned => .ok scanned
  | _ => .ok ([], text)

def scanExponentDigits (negative : Bool) (text : List Char) :
    Except Ending (Option Int × List Char) :=
  match scanDigits text with
  | ([], rest) => .error (endingAt rest)
  | (digits, rest) =>
      let value : Int := Number.digitsValue digits
      .ok (some (if negative then -value else value), rest)

def scanExponent (text : List Char) : Except Ending (Option Int × List Char) :=
  match text with
  | 'e' :: '-' :: rest | 'E' :: '-' :: rest => scanExponentDigits true rest
  | 'e' :: '+' :: rest | 'E' :: '+' :: rest => scanExponentDigits false rest
  | 'e' :: rest | 'E' :: rest => scanExponentDigits false rest
  | _ => .ok (none, text)

def scanNumber (negative : Bool) (text : List Char) : Token × List Char :=
  match scanWhole text with
  | .error ending => (.partialNumber ending, [])
  | .ok (whole, text) =>
      match scanFraction text with
      | .error ending => (.partialNumber ending, [])
      | .ok (fraction, text) =>
          match scanExponent text with
          | .error ending => (.partialNumber ending, [])
          | .ok (exponent, text) => (.number ⟨negative, whole, fraction, exponent⟩, text)

/-! ## Words and strings -/

def scanWord (token : Token) : List Char → List Char → Token × List Char
  | [], text => (token, text)
  | expected :: word, c :: text =>
      if c = expected then scanWord token word text else (.partialWord .broken, [])
  | _ :: _, [] => (.partialWord .cutShort, [])

def simpleEscape? (c : Char) : Option Char :=
  match c with
  | '"' => some '"'
  | '\\' => some '\\'
  | '/' => some '/'
  | 'b' => some '\x08'
  | 'f' => some '\x0c'
  | 'n' => some '\n'
  | 'r' => some '\r'
  | 't' => some '\t'
  | _ => none

def hexUnit? (a b c d : Char) : Option Nat :=
  match Text.hexValue? a, Text.hexValue? b, Text.hexValue? c, Text.hexValue? d with
  | some a, some b, some c, some d => some (((a * 16 + b) * 16 + c) * 16 + d)
  | _, _, _, _ => none

/-- Four bytes are looked at, however many characters they hold. -/
def unitEnding (text : List Char) : Ending :=
  if 4 ≤ (text.take 4).foldl (fun bytes c => bytes + c.utf8Size) 0 then .broken else .cutShort

/-- Read on behind the opening quote; the pieces are collected newest first. -/
def scanText (pieces : List Piece) : List Char → Token × List Char
  | [] => (.text pieces.reverse .cutShort, [])
  | '"' :: text => (.text pieces.reverse .complete, text)
  | '\\' :: 'u' :: a :: b :: c :: d :: text =>
      match hexUnit? a b c d with
      | some value => scanText (.codeUnit value :: pieces) text
      | none => (.text pieces.reverse .broken, [])
  | '\\' :: 'u' :: text => (.text pieces.reverse (unitEnding text), [])
  | '\\' :: c :: text =>
      match simpleEscape? c with
      | some c => scanText (.char c :: pieces) text
      | none => (.text pieces.reverse .broken, [])
  | ['\\'] => (.text pieces.reverse .cutShort, [])
  | c :: text =>
      if c < ' ' then (.text pieces.reverse .broken, [])
      else scanText (.char c :: pieces) text

/-! ## Tokens -/

def scanToken (c : Char) (text : List Char) : Token × List Char :=
  match c with
  | '\x7b' => (.openBrace, text)
  | '\x7d' => (.closeBrace, text)
  | '[' => (.openBracket, text)
  | ']' => (.closeBracket, text)
  | ',' => (.comma, text)
  | ':' => (.colon, text)
  | 'n' => scanWord .null "ull".toList text
  | 't' => scanWord (.bool true) "rue".toList text
  | 'f' => scanWord (.bool false) "alse".toList text
  | '"' => scanText [] text
  | '-' => scanNumber true text
  | c => if isDigit c then scanNumber false (c :: text) else (.stray, text)

theorem length_dropWhile_le {α : Type} (p : α → Bool) (l : List α) :
    (l.dropWhile p).length ≤ l.length := by
  induction l with
  | nil => exact Nat.le_refl _
  | cons a l ih =>
      rw [List.dropWhile_cons]
      split
      · exact Nat.le_succ_of_le ih
      · exact Nat.le_refl _

theorem length_scanWord_le (token : Token) (word text : List Char) :
    (scanWord token word text).2.length ≤ text.length := by
  induction word generalizing text with
  | nil => exact Nat.le_refl _
  | cons expected word ih =>
      cases text with
      | nil => exact Nat.le_refl _
      | cons c text =>
          simp only [scanWord]
          split
          · exact Nat.le_succ_of_le (ih text)
          · exact Nat.zero_le _

theorem length_scanDigits_le (text : List Char) : (scanDigits text).2.length ≤ text.length :=
  length_dropWhile_le _ _

private theorem scanWhole_rest {text rest : List Char} {digits : List Nat}
    (h : scanWhole text = .ok (digits, rest)) : rest = text.dropWhile isDigit := by
  unfold scanWhole at h
  split at h
  · contradiction
  · contradiction
  · simp only [Except.ok.injEq] at h
    simp [scanDigits] at h
    exact h.2.symm

private theorem length_scanFraction_le {text rest : List Char} {digits : List Nat}
    (h : scanFraction text = .ok (digits, rest)) : rest.length ≤ text.length := by
  unfold scanFraction at h
  split at h
  · rename_i after
    have := length_scanDigits_le after
    split at h
    · contradiction
    · simp only [Except.ok.injEq] at h
      rw [h] at this
      exact Nat.le_succ_of_le this
  · simp only [Except.ok.injEq, Prod.mk.injEq] at h
    simp [h.2]

private theorem length_scanExponentDigits_le {negative : Bool} {text rest : List Char}
    {value : Option Int}
    (h : scanExponentDigits negative text = .ok (value, rest)) : rest.length ≤ text.length := by
  have := length_scanDigits_le text
  unfold scanExponentDigits at h
  split at h
  · contradiction
  · rename_i hscan
    rw [hscan] at this
    simp only [Except.ok.injEq, Prod.mk.injEq] at h
    simp_all

private theorem length_scanExponent_le {text rest : List Char} {value : Option Int}
    (h : scanExponent text = .ok (value, rest)) : rest.length ≤ text.length := by
  unfold scanExponent at h
  split at h
  case h_7 =>
    simp only [Except.ok.injEq, Prod.mk.injEq] at h
    simp [h.2]
  all_goals
    have := length_scanExponentDigits_le h
    simp only [List.length_cons]
    omega

theorem length_scanNumber_le (negative : Bool) (text : List Char) :
    (scanNumber negative text).2.length ≤ (text.dropWhile isDigit).length := by
  unfold scanNumber
  split
  · exact Nat.zero_le _
  · rename_i hwhole
    have := scanWhole_rest hwhole
    split
    · exact Nat.zero_le _
    · rename_i hfraction
      have := length_scanFraction_le hfraction
      split
      · exact Nat.zero_le _
      · rename_i hexponent
        have := length_scanExponent_le hexponent
        simp_all
        omega

private theorem length_scanText_le (pieces : List Piece) (text : List Char) :
    (scanText pieces text).2.length ≤ text.length := by
  fun_induction scanText pieces text <;> simp_all <;> omega

theorem length_scanToken_le (c : Char) (text : List Char) :
    (scanToken c text).2.length ≤ text.length := by
  unfold scanToken
  split
  all_goals try exact Nat.le_refl _
  · exact length_scanWord_le ..
  · exact length_scanWord_le ..
  · exact length_scanWord_le ..
  · exact length_scanText_le ..
  · exact Nat.le_trans (length_scanNumber_le ..) (length_dropWhile_le ..)
  · split
    · rename_i h
      have := length_scanNumber_le false (c :: text)
      rw [List.dropWhile_cons_of_pos h] at this
      exact Nat.le_trans this (length_dropWhile_le ..)
    · exact Nat.le_refl _

def tokensFrom (read : Array Token) (text : List Char) : Array Token :=
  match _h : text.dropWhile isSpace with
  | [] => read
  | c :: rest =>
      let scanned := scanToken c rest
      tokensFrom (read.push scanned.1) scanned.2
termination_by text.length
decreasing_by
  have := length_scanToken_le c rest
  have := length_dropWhile_le isSpace text
  rw [_h, List.length_cons] at this
  omega

def tokens (text : List Char) : List Token := (tokensFrom #[] text).toList

end Wordmill.Json
