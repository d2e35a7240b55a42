import Wordmill.Json.Token

/-!
Reading one JSON value off a list of tokens.  The reader keeps the brackets that
are open with what was read inside them, and takes one token at a time; the
first fault ends the reading.
-/

namespace Wordmill

inductive Json where
  | null
  | bool (value : Bool)
  | number (value : Json.Number)
  | text (chars : List Char)
  | array (items : List Json)
  | object (members : List (List Char × Json))
  deriving Repr, Inhabited

namespace Json

/--
What the value is wanted for.  A value that is read may not be nested too deeply
and its strings and numbers have to stand for something; one that is passed over
has to be well formed only, and stands for nothing.
-/
inductive Purpose where
  | read
  | passOver
  deriving DecidableEq, Repr

/-- The greatest number of brackets open at one time, the one around the options not counted. -/
def maxDepth : Nat := 126

def Ending.fault : Ending → Fault
  | .cutShort => .unexpectedEnd
  | _ => .malformed

def isLeading (value : Nat) : Bool := 0xD800 ≤ value && value ≤ 0xDBFF

def isTrailing (value : Nat) : Bool := 0xDC00 ≤ value && value ≤ 0xDFFF

/-- The character above U+FFFF that two surrogates make up. -/
def pairChar (leading trailing : Nat) : Char :=
  Char.ofNat (0x10000 + (leading - 0xD800) * 0x400 + (trailing - 0xDC00))

/-- Surrogates have to come in pairs; the characters are collected newest first. -/
def joinPieces (ending : Ending) (chars : List Char) : List Piece → Except Fault (List Char)
  | [] =>
      match ending with
      | .complete => .ok chars.reverse
      | ending => .error ending.fault
  | .char c :: pieces => joinPieces ending (c :: chars) pieces
  | .codeUnit value :: pieces =>
      if isTrailing value then .error .malformed
      else if isLeading value then
        match pieces with
        | .codeUnit next :: pieces =>
            if isTrailing next then joinPieces ending (pairChar value next :: chars) pieces
            else .error .malformed
        | .char _ :: _ => .error .malformed
        | [] => .error ending.fault
      else joinPieces ending (Char.ofNat value :: chars) pieces

def Token.scalar (token : Token) (purpose : Purpose) : Except Fault Json :=
  match token, purpose with
  | .null, _ => .ok .null
  | .bool value, _ => .ok (.bool value)
  | .number value, .read => if value.overflows then .error .malformed else .ok (.number value)
  | .number _, .passOver => .ok .null
  | .text pieces ending, .read =>
      match joinPieces ending [] pieces with
      | .error fault => .error fault
      | .ok chars => .ok (.text chars)
  | .text _ .complete, .passOver => .ok .null
  | .text _ ending, .passOver => .error ending.fault
  | .partialNumber ending, .read => .error ending.fault
  | .partialNumber _, .passOver => .error .malformed
  | .partialWord ending, _ => .error ending.fault
  | _, _ => .error .malformed

/-- An open bracket with what was read inside it, newest first. -/
inductive Frame where
  | items (read : List Json)
  | members (read : List (List Char × Json)) (key : List Char)
  deriving Repr

inductive Expected where
  | value
  | firstItem
  | firstKey
  | key
  | colon
  | more
  deriving DecidableEq, Repr

inductive Progress where
  | done (value : Json)
  | reading (frames : List Frame) (expected : Expected)
  deriving Repr

def deliver (value : Json) : List Frame → Progress
  | [] => .done value
  | .items read :: frames => .reading (.items (value :: read) :: frames) .more
  | .members read key :: frames => .reading (.members ((key, value) :: read) [] :: frames) .more

def openFrame (purpose : Purpose) (frames : List Frame) (frame : Frame) (expected : Expected) :
    Except Fault Progress :=
  if purpose = .read ∧ frames.length = maxDepth then .error .malformed
  else .ok (.reading (frame :: frames) expected)

def startValue (purpose : Purpose) (frames : List Frame) (token : Token) :
    Except Fault Progress :=
  match token with
  | .openBracket => openFrame purpose frames (.items []) .firstItem
  | .openBrace => openFrame purpose frames (.members [] []) .firstKey
  | token =>
      match token.scalar purpose with
      | .error fault => .error fault
      | .ok value => .ok (deliver value frames)

def readKey (purpose : Purpose) (frames : List Frame) (token : Token) : Except Fault Progress :=
  match frames, token with
  | .members read _ :: frames, .text pieces ending =>
      match (Token.text pieces ending).scalar purpose with
      | .error fault => .error fault
      | .ok (.text key) => .ok (.reading (.members read key :: frames) .colon)
      | .ok _ => .ok (.reading (.members read [] :: frames) .colon)
  | _, _ => .error .malformed

def readMore (frames : List Frame) (token : Token) : Except Fault Progress :=
  match frames, token with
  | .items read :: frames, .closeBracket => .ok (deliver (.array read.reverse) frames)
  | .members read _ :: frames, .closeBrace => .ok (deliver (.object read.reverse) frames)
  | .items _ :: _, .comma => .ok (.reading frames .value)
  | .members _ _ :: _, .comma => .ok (.reading frames .key)
  | _, _ => .error .malformed

def readToken (purpose : Purpose) (frames : List Frame) (expected : Expected) (token : Token) :
    Except Fault Progress :=
  match expected, token with
  | .value, token => startValue purpose frames token
  | .firstItem, .closeBracket => readMore frames token
  | .firstItem, token => startValue purpose frames token
  | .firstKey, .closeBrace => readMore frames token
  | .firstKey, token => readKey purpose frames token
  | .key, token => readKey purpose frames token
  | .colon, .colon => .ok (.reading frames .value)
  | .colon, _ => .error .malformed
  | .more, token => readMore frames token

def readFrom (purpose : Purpose) (frames : List Frame) (expected : Expected) :
    List Token → Except Fault (Json × List Token)
  | [] => .error .unexpectedEnd
  | token :: tokens =>
      match readToken purpose frames expected token with
      | .error fault => .error fault
      | .ok (.done value) => .ok (value, tokens)
      | .ok (.reading frames expected) => readFrom purpose frames expected tokens

def read (purpose : Purpose) (tokens : List Token) : Except Fault (Json × List Token) :=
  readFrom purpose [] .value tokens

theorem length_readFrom_lt {purpose : Purpose} {frames : List Frame} {expected : Expected}
    {tokens rest : List Token} {value : Json}
    (h : readFrom purpose frames expected tokens = .ok (value, rest)) :
    rest.length < tokens.length := by
  induction tokens generalizing frames expected with
  | nil => contradiction
  | cons token tokens ih =>
      simp only [readFrom] at h
      split at h
      · contradiction
      · simp only [Except.ok.injEq, Prod.mk.injEq] at h
        simp [h.2]
      · exact Nat.lt_succ_of_lt (ih h)

end Json

end Wordmill
