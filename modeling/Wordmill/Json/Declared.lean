/-!
Types by their declarations.  How a value is written as JSON, and what is read as
one, follows from how its type is declared.  That is the work of a library, which
knows what to do with any declaration.
-/

namespace Wordmill.Json

inductive Scalar : Type → Type where
  | u32 : Scalar UInt32
  | u64 : Scalar UInt64
  | bool : Scalar Bool
  | string : Scalar String

/-- One of the parts of a record, by its name. -/
structure Field (Kind : Type → Type _) (α : Type) where
  name : String
  {Value : Type}
  kind : Kind Value
  get : α → Value
  set : Value → α → α

/-- One form of a type that has several: a scalar, or a record of which no part may be missing. -/
inductive Variant (α : Type) where
  | scalar {β : Type} (kind : Scalar β) (wrap : β → α) (unwrap : α → Option β)
  | record {β : Type} (fields : List (Field Scalar β)) (blank : β) (wrap : β → α)
      (unwrap : α → Option β)

/-- A type without any mark that tells the variants apart has that of its first fitting one. -/
inductive Kind (α : Type) where
  | scalar (kind : Scalar α)
  | untagged (variants : List (Variant α))

/-- Any part may be missing from a record that has defaults. -/
inductive Declared (α : Type) where
  | kind (kind : Kind α)
  | record (fields : List (Field Kind α)) (default : α)

/-- What reads and writes JSON for declared types, and gives errors of type `ε`. -/
structure Library (ε : Type) where
  read {α : Type} : Declared α → List Char → Except ε α
  write {α : Type} : Declared α → α → List Char

end Wordmill.Json
