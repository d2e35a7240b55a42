import Wordmill.Json.Declared
import Wordmill.Json.Value

/-!
A library for declared types.  A record is read from an object with any of its
fields in any order, or from an array of the fields in their order, without the
values in between being kept; a type with several variants is read whole before
the variants are tried.  The first fault met while going through the text is the
one reported.
-/

namespace Wordmill.Json

/-! ## Values that have been read -/

/-- A number without sign, fraction and exponent, of at most `limit`. -/
def naturalOf? (limit : Nat) : Json → Option Nat
  | .number value => value.natural?.filter (· ≤ limit)
  | _ => none

def memberOf? (name : String) (members : List (List Char × Json)) : Option Json :=
  match members.filter fun member => member.1 = name.toList with
  | [(_, value)] => some value
  | _ => none

def boolOf? : Json → Option Bool
  | .bool value => some value
  | _ => none

def stringOf? : Json → Option String
  | .text chars => some (String.ofList chars)
  | _ => none

def Scalar.ofJson? : {α : Type} → Scalar α → Json → Option α
  | _, .u32, json => (naturalOf? 0xFFFFFFFF json).map UInt32.ofNat
  | _, .u64, json => (naturalOf? 0xFFFFFFFFFFFFFFFF json).map UInt64.ofNat
  | _, .bool, json => boolOf? json
  | _, .string, json => stringOf? json

def fill {α : Type} (members : List (List Char × Json)) : List (Field Scalar α) → α → Option α
  | [], made => some made
  | field :: fields, made => do
      let value ← (memberOf? field.name members).bind field.kind.ofJson?
      fill members fields (field.set value made)

def Variant.ofJson? {α : Type} (variant : Variant α) (json : Json) : Option α :=
  match variant, json with
  | .scalar kind wrap _, json => (kind.ofJson? json).map wrap
  | .record fields blank wrap _, .object members => (fill members fields blank).map wrap
  | .record .., _ => none

/-! ## Reading -/

/-- Where a single token is wanted, a bracket is of the wrong kind whatever it holds. -/
def readScalar (tokens : List Token) : Except Fault (Json × List Token) :=
  match tokens with
  | [] => .error .unexpectedEnd
  | .openBrace :: _ => .error .mismatch
  | .openBracket :: _ => .error .mismatch
  | token :: tokens =>
      match token.scalar .read with
      | .error fault => .error fault
      | .ok value => .ok (value, tokens)

def Kind.json {α : Type} (kind : Kind α) (tokens : List Token) : Except Fault (Json × List Token) :=
  match kind with
  | .scalar _ => readScalar tokens
  | .untagged _ => Json.read .read tokens

def Kind.ofJson? {α : Type} (kind : Kind α) (json : Json) : Option α :=
  match kind with
  | .scalar kind => kind.ofJson? json
  | .untagged variants => variants.findSome? fun variant => variant.ofJson? json

def Kind.read {α : Type} (kind : Kind α) (tokens : List Token) : Except Fault (α × List Token) :=
  match kind.json tokens with
  | .error fault => .error fault
  | .ok (json, tokens) =>
      match kind.ofJson? json with
      | none => .error .mismatch
      | some value => .ok (value, tokens)

/-- A record on the way, and the names of the fields that have been read into it. -/
structure Draft (α : Type) where
  value : α
  seen : List String

section

variable {α : Type}

def Draft.read (draft : Draft α) (field : Field Kind α) (tokens : List Token) :
    Except Fault (Draft α × List Token) :=
  match field.kind.read tokens with
  | .error fault => .error fault
  | .ok (value, tokens) => .ok (⟨field.set value draft.value, field.name :: draft.seen⟩, tokens)

variable (fields : List (Field Kind α))

def fieldOf? (name : List Char) : Option (Field Kind α) :=
  fields.find? fun field => field.name.toList = name

/-- The member in front; one that names no field is passed over. -/
def readMember (draft : Draft α) (tokens : List Token) : Except Fault (Draft α × List Token) :=
  match tokens with
  | [] => .error .unexpectedEnd
  | .text pieces ending :: tokens =>
      match joinPieces ending [] pieces with
      | .error fault => .error fault
      | .ok name =>
          let field := fieldOf? fields name
          if field.any fun field => draft.seen.contains field.name then .error .mismatch
          else match tokens with
            | [] => .error .unexpectedEnd
            | .colon :: tokens =>
                match field with
                | some field => draft.read field tokens
                | none =>
                    match Json.read .passOver tokens with
                    | .error fault => .error fault
                    | .ok (_, tokens) => .ok (draft, tokens)
            | _ => .error .malformed
  | _ => .error .malformed

private theorem length_readScalar_lt {tokens rest : List Token} {value : Json}
    (h : readScalar tokens = .ok (value, rest)) : rest.length < tokens.length := by
  unfold readScalar at h
  split at h
  · contradiction
  · contradiction
  · contradiction
  · split at h
    · contradiction
    · simp only [Except.ok.injEq, Prod.mk.injEq] at h
      simp [h.2]

private theorem Draft.length_read_lt {draft next : Draft α} {field : Field Kind α}
    {tokens rest : List Token} (h : draft.read field tokens = .ok (next, rest)) :
    rest.length < tokens.length := by
  unfold Draft.read Kind.read at h
  split at h
  · contradiction
  · rename_i hread
    split at hread
    · contradiction
    · rename_i hjson
      split at hread
      · contradiction
      · simp only [Except.ok.injEq, Prod.mk.injEq] at h hread
        rw [← h.2, ← hread.2]
        unfold Kind.json at hjson
        split at hjson
        · exact length_readScalar_lt hjson
        · exact length_readFrom_lt hjson

variable {fields}

private theorem length_readMember_lt {draft next : Draft α} {tokens rest : List Token}
    (h : readMember fields draft tokens = .ok (next, rest)) : rest.length < tokens.length := by
  unfold readMember at h
  split at h
  · contradiction
  · split at h
    · contradiction
    · simp only at h
      split at h
      · contradiction
      · split at h
        · contradiction
        · split at h
          · have := Draft.length_read_lt h
            simp only [List.length_cons]
            omega
          · split at h
            · contradiction
            · rename_i hread
              have := length_readFrom_lt hread
              simp only [Except.ok.injEq, Prod.mk.injEq] at h
              simp only [List.length_cons, ← h.2]
              omega
        · contradiction
  · contradiction

variable (fields)

/-- The members of an object, of which `draft` holds those in front. -/
def readMembers (draft : Draft α) (tokens : List Token) : Except Fault (Draft α × List Token) :=
  match _h : readMember fields draft tokens with
  | .error fault => .error fault
  | .ok (_, []) => .error .unexpectedEnd
  | .ok (draft, .closeBrace :: tokens) => .ok (draft, tokens)
  | .ok (draft, .comma :: tokens) => readMembers draft tokens
  | .ok _ => .error .malformed
termination_by tokens.length
decreasing_by
  have := length_readMember_lt _h
  rw [List.length_cons] at this
  omega

/-- The items of an array that stand for `fields`, each behind a comma. -/
def readItems (draft : Draft α) :
    List (Field Kind α) → List Token → Except Fault (Draft α × List Token)
  | _, [] => .error .unexpectedEnd
  | _, .closeBracket :: tokens => .ok (draft, tokens)
  | field :: fields, .comma :: tokens =>
      match draft.read field tokens with
      | .error fault => .error fault
      | .ok (draft, tokens) => readItems draft fields tokens
  | _, _ => .error .malformed

def readArray (draft : Draft α) (tokens : List Token) : Except Fault (Draft α × List Token) :=
  match fields, tokens with
  | _, .closeBracket :: tokens => .ok (draft, tokens)
  | field :: fields, tokens =>
      match draft.read field tokens with
      | .error fault => .error fault
      | .ok (draft, tokens) => readItems draft fields tokens
  | [], _ => .error .malformed

def readRecord (draft : Draft α) (tokens : List Token) : Except Fault (Draft α × List Token) :=
  match tokens with
  | [] => .error .unexpectedEnd
  | .openBrace :: .closeBrace :: tokens => .ok (draft, tokens)
  | .openBrace :: tokens => readMembers fields draft tokens
  | .openBracket :: tokens => readArray fields draft tokens
  | token :: _ =>
      match token.scalar .read with
      | .error fault => .error fault
      | .ok _ => .error .mismatch

def Declared.read (declared : Declared α) (tokens : List Token) : Except Fault (α × List Token) :=
  match declared with
  | .kind plain => plain.read tokens
  | .record fields default =>
      match readRecord fields ⟨default, []⟩ tokens with
      | .error fault => .error fault
      | .ok (draft, tokens) => .ok (draft.value, tokens)

/-! ## Writing -/

end

def escape (c : Char) : List Char :=
  match c with
  | '"' => ['\\', '"']
  | '\\' => ['\\', '\\']
  | '\x08' => ['\\', 'b']
  | '\x0c' => ['\\', 'f']
  | '\n' => ['\\', 'n']
  | '\r' => ['\\', 'r']
  | '\t' => ['\\', 't']
  | c => if c < ' ' then '\\' :: 'u' :: Text.hex 4 c.toNat else [c]

def quote (text : String) : List Char := '"' :: text.toList.flatMap escape ++ ['"']

def Scalar.write : {α : Type} → Scalar α → α → List Char
  | _, .u32, n => Nat.toDigits 10 n.toNat
  | _, .u64, n => Nat.toDigits 10 n.toNat
  | _, .bool, value => (if value then "true" else "false").toList
  | _, .string, value => quote value

section

variable {α : Type}

/-- An object of names with the texts of their values. -/
def writeObject (members : List (String × List Char)) : List Char :=
  '\x7b' :: [','].intercalate (members.map fun (name, written) =>
    quote name ++ ':' :: written) ++ ['\x7d']

def Variant.write? (variant : Variant α) (value : α) : Option (List Char) :=
  match variant with
  | .scalar kind _ unwrap => (unwrap value).map kind.write
  | .record fields _ _ unwrap =>
      (unwrap value).map fun record =>
        writeObject (fields.map fun field => (field.name, field.kind.write (field.get record)))

def Kind.write (kind : Kind α) (value : α) : List Char :=
  match kind with
  | .scalar kind => kind.write value
  | .untagged variants => (variants.findSome? fun variant => variant.write? value).getD []

def Declared.write (declared : Declared α) (value : α) : List Char :=
  match declared with
  | .kind plain => plain.write value
  | .record fields _ =>
      writeObject (fields.map fun field => (field.name, field.kind.write (field.get value)))

end

def library : Library Fault where
  read declared text :=
    match declared.read (tokens text) with
    | .error fault => .error fault
    | .ok (value, []) => .ok value
    | .ok (_, _ :: _) => .error .malformed
  write := Declared.write

end Wordmill.Json
