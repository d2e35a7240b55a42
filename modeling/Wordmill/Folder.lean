import Wordmill.Text.Blank

/-!
Files by path.  A `Folder` is a working folder held in memory; of what lies
outside it nothing is known but that the folders above it exist.
-/

namespace Wordmill

inductive Entry where
  | absent
  | folder
  | file (bytes : ByteArray)

def Entry.text? : Entry → Option String
  | .file bytes => String.fromUTF8? bytes
  | _ => none

/-- A folder does exist, though it cannot be read. -/
def Entry.exists : Entry → Bool
  | .absent => false
  | _ => true

/-- Entries by the parts of their paths; the folders above an entry need no entry of their own. -/
structure Folder where
  entries : List (List String × Entry)

namespace Folder

/-- A place inside the working folder, given by its parts, or a folder outside of it. -/
inductive Place where
  | inside (parts : List String)
  | outside
  deriving DecidableEq, Repr

def parts (path : String) : List String :=
  (Text.splitOn '/' path.toList).map String.ofList

/-- One step of a path whose folders are all there. -/
def advance (reached : List String) (part : String) : List String :=
  if part = "" ∨ part = "." then reached
  else if part = ".." then reached.dropLast
  else reached ++ [part]

def ofList (entries : List (String × Entry)) : Folder :=
  ⟨entries.map fun (path, entry) => ((parts path).foldl advance [], entry)⟩

def entryAt (folder : Folder) : Place → Entry
  | .outside => .folder
  | .inside [] => .folder
  | .inside parts =>
      match folder.entries.lookup parts with
      | some entry => entry
      | none =>
          if folder.entries.any fun (path, _) => parts.isPrefixOf path then .folder
          else .absent

def follow (folder : Folder) (place : Place) (part : String) : Option Place :=
  match folder.entryAt place with
  | .folder =>
      if part = "" ∨ part = "." then some place
      else match place with
        | .outside => if part = ".." then some .outside else none
        | .inside reached =>
            if reached = [] ∧ part = ".." then some .outside
            else some (.inside (advance reached part))
  | _ => none

def pathLimit : Nat := 4096

def find (folder : Folder) (path : String) : Entry :=
  if path.isEmpty || path.contains '\x00' || pathLimit ≤ path.utf8ByteSize then .absent
  else
    let start := if path.startsWith "/" then Place.outside else .inside []
    match (parts path).foldlM folder.follow start with
    | none => .absent
    | some place => folder.entryAt place

end Folder

end Wordmill
