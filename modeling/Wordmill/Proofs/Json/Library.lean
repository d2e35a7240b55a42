import Wordmill.Json.Declared
import Wordmill.Proofs.Json.Grammar

/-!
# What is relied on of a library

The rules for declared types, one by one: how a scalar is spelled, that a member
in front of others sets its field and one of an unknown name does not matter, that
the variants of an untagged type are tried in their order.  What whole options come
to when they are read is no rule and follows from these.
-/

namespace Wordmill.Json

/-! ## Texts -/

/-- A value without brackets. -/
def Atom (text : List Char) : Prop :=
  Derives .value text ∧ ∀ c ∈ text.head?, c ∉ ['[', '\x7b']

/-- A value that no bound on the nesting can be in the way of. -/
inductive Flat : List Char → Prop where
  | atom {text : List Char} (htext : Atom text) : Flat text
  | object {names : List (List Char)} {text : List Char}
      (htext : IsObject (fun name => Names name Atom) names text) : Flat text

/-- An object with members of the given names, and the same with `member` in front of them. -/
inductive Precedes (member : List Char) : List (List Char) → List Char → List Char → Prop where
  | only {blank : List Char} (hblank : Blank blank) :
      Precedes member [] ('\x7b' :: blank ++ ['\x7d']) ('\x7b' :: member ++ ['\x7d'])
  | others {names : List (List Char)} {members : List Char}
      (hmembers : IsMembers (fun name => Names name (Derives .value)) names members) :
      Precedes member names ('\x7b' :: members ++ ['\x7d'])
        ('\x7b' :: (member ++ ',' :: members) ++ ['\x7d'])

/-! ## Declarations -/

section

variable {α : Type}

def copy (fields : List (Field Scalar α)) (record blank : α) : α :=
  fields.foldl (fun made field => field.set (field.get record) made) blank

def Variant.holds (variant : Variant α) (value : α) : Bool :=
  match variant with
  | .scalar _ _ unwrap => (unwrap value).isSome
  | .record _ _ _ unwrap => (unwrap value).isSome

end

/-! ## Libraries -/

namespace Library

variable {ε : Type}

def Reads {α : Type} (library : Library ε) (declared : Declared α) (value : α)
    (text : List Char) : Prop :=
  Derives .value text ∧ library.read declared text = .ok value

/-- The member for a field of a record that has scalars only. -/
def ScalarMember {α : Type} (library : Library ε) (record : α) (field : Field Scalar α) :
    List Char → Prop :=
  Names field.name.toList (library.Reads (.kind (.scalar field.kind)) (field.get record))

structure Conforms (library : Library ε) : Prop where
  read_blank {α : Type} {declared : Declared α} {value : α} {before text after : List Char}
      (hbefore : Blank before) (hafter : Blank after)
      (htext : library.Reads declared value text) :
      library.read declared (before ++ text ++ after) = .ok value
  read_u32 (n : UInt32) : library.read (.kind (.scalar .u32)) (Nat.toDigits 10 n.toNat) = .ok n
  read_u64 (n : UInt64) : library.read (.kind (.scalar .u64)) (Nat.toDigits 10 n.toNat) = .ok n
  read_bool (value : Bool) :
      library.read (.kind (.scalar .bool)) (if value then "true" else "false").toList = .ok value
  read_string {text chars : List Char} (htext : Quotes text chars) :
      library.read (.kind (.scalar .string)) text = .ok (String.ofList chars)
  /-- What is missing from a record comes from its defaults. -/
  read_empty {α : Type} {fields : List (Field Kind α)} {default : α} {blank : List Char}
      (hblank : Blank blank) :
      library.read (.record fields default) ('\x7b' :: blank ++ ['\x7d']) = .ok default
  /-- A field is set by the one member that has its name, as if this were the default. -/
  read_member {α : Type} {fields : List (Field Kind α)} {default made : α} {field : Field Kind α}
      {value : field.Value} {names : List (List Char)} {member rest text : List Char}
      (hdistinct : (fields.map (·.name)).Nodup) (hfield : field ∈ fields)
      (hmember : Names field.name.toList
        (fun text => library.Reads (.kind field.kind) value text ∧ Flat text) member)
      (htext : Precedes member names rest text) (hnew : field.name.toList ∉ names)
      (hrest : library.read (.record fields (field.set value default)) rest = .ok made) :
      library.read (.record fields default) text = .ok made
  /-- A member of an unknown name is passed over, whatever its value. -/
  read_unknown {α : Type} {fields : List (Field Kind α)} {default made : α} {name : List Char}
      {names : List (List Char)} {member rest text : List Char}
      (hname : ∀ field ∈ fields, field.name.toList ≠ name)
      (hmember : Names name (Derives .value) member) (htext : Precedes member names rest text)
      (hrest : library.read (.record fields default) rest = .ok made) :
      library.read (.record fields default) text = .ok made
  read_first_variant {α : Type} {variant : Variant α} {variants : List (Variant α)} {value : α}
      {text : List Char} (hread : library.read (.kind (.untagged [variant])) text = .ok value) :
      library.read (.kind (.untagged (variant :: variants))) text = .ok value
  read_next_variant {α : Type} {variant : Variant α} {variants : List (Variant α)} {value : α}
      {fault : ε} {text : List Char}
      (hfirst : library.read (.kind (.untagged [variant])) text = .error fault)
      (hread : library.read (.kind (.untagged variants)) text = .ok value) :
      library.read (.kind (.untagged (variant :: variants))) text = .ok value
  read_scalar_variant {α β : Type} {kind : Scalar β} {wrap : β → α} {unwrap : α → Option β}
      {value : β} {text : List Char} (htext : library.Reads (.kind (.scalar kind)) value text) :
      library.read (.kind (.untagged [.scalar kind wrap unwrap])) text = .ok (wrap value)
  /-- An object is no scalar. -/
  read_scalar_variant_object {α β γ : Type} {kind : Scalar β} {wrap : β → α}
      {unwrap : α → Option β} {record : γ} {order : List (Field Scalar γ)} {text : List Char}
      (htext : IsObject (library.ScalarMember record) order text) :
      ∃ fault, library.read (.kind (.untagged [.scalar kind wrap unwrap])) text = .error fault
  /-- The members of a record may stand in any order. -/
  read_record_variant {α β : Type} {fields order : List (Field Scalar β)} {record blank : β}
      {wrap : β → α} {unwrap : α → Option β} {text : List Char}
      (hdistinct : (fields.map (·.name)).Nodup) (horder : order.Perm fields)
      (htext : IsObject (library.ScalarMember record) order text) :
      library.read (.kind (.untagged [.record fields blank wrap unwrap])) text =
        .ok (wrap (copy fields record blank))
  write_u32 (n : UInt32) : library.write (.kind (.scalar .u32)) n = Nat.toDigits 10 n.toNat
  write_u64 (n : UInt64) : library.write (.kind (.scalar .u64)) n = Nat.toDigits 10 n.toNat
  write_bool (value : Bool) :
      library.write (.kind (.scalar .bool)) value = (if value then "true" else "false").toList
  write_string (text : String) : Quotes (library.write (.kind (.scalar .string)) text) text.toList
  /-- A record is written with all of its fields, in the order they are declared in. -/
  write_record {α : Type} (fields : List (Field Kind α)) (default record : α) :
      IsObject (fun field => Names field.name.toList
          (· = library.write (.kind field.kind) (field.get record)))
        fields (library.write (.record fields default) record)
  write_next_variant {α : Type} {variant : Variant α} {value : α} (variants : List (Variant α))
      (hother : variant.holds value = false) :
      library.write (.kind (.untagged (variant :: variants))) value =
        library.write (.kind (.untagged variants)) value
  write_scalar_variant {α β : Type} {unwrap : α → Option β} {value : α} {inner : β}
      (kind : Scalar β) (wrap : β → α) (variants : List (Variant α))
      (hvalue : unwrap value = some inner) :
      library.write (.kind (.untagged (.scalar kind wrap unwrap :: variants))) value =
        library.write (.kind (.scalar kind)) inner
  write_record_variant {α β : Type} {unwrap : α → Option β} {value : α} {record : β}
      (fields : List (Field Scalar β)) (blank : β) (wrap : β → α) (variants : List (Variant α))
      (hvalue : unwrap value = some record) :
      IsObject (fun field => Names field.name.toList
          (· = library.write (.kind (.scalar field.kind)) (field.get record)))
        fields
        (library.write (.kind (.untagged (.record fields blank wrap unwrap :: variants))) value)

end Library

end Wordmill.Json
