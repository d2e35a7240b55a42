/-!
Values under one-character names, in ascending order of the names.
-/

namespace Wordmill

abbrev Dictionary (α : Type) := List (Char × α)

namespace Dictionary

variable {α : Type}

/-- A name that is there already gets the new value. -/
def insert (name : Char) (value : α) : Dictionary α → Dictionary α
  | [] => [(name, value)]
  | (other, old) :: entries =>
      if name < other then (name, value) :: (other, old) :: entries
      else if name = other then (name, value) :: entries
      else (other, old) :: insert name value entries

def find? (name : Char) : Dictionary α → Option α
  | [] => none
  | (other, value) :: entries => if name = other then some value else find? name entries

def hasName (name : Char) (entries : Dictionary α) : Bool := entries.any (·.1 == name)

def ofList (entries : List (Char × α)) : Dictionary α :=
  entries.foldl (fun dictionary entry => insert entry.1 entry.2 dictionary) []

def erase (name : Char) (entries : Dictionary α) : Dictionary α :=
  entries.filter (·.1 != name)

theorem find?_insert (name other : Char) (value : α) (entries : Dictionary α) :
    find? other (insert name value entries) =
      if other = name then some value else find? other entries := by
  induction entries with
  | nil => rfl
  | cons entry entries ih =>
      obtain ⟨present, old⟩ := entry
      simp only [insert]
      split
      · rfl
      · split
        · subst present
          by_cases h : other = name <;> simp [find?, h]
        · rename_i hne
          simp only [find?, ih]
          by_cases h : other = name
          · subst h
            simp [hne]
          · simp [h]

theorem mem_of_find? {name : Char} {value : α} {entries : Dictionary α}
    (h : find? name entries = some value) : (name, value) ∈ entries := by
  induction entries with
  | nil => contradiction
  | cons entry entries ih =>
      obtain ⟨other, old⟩ := entry
      simp only [find?] at h
      split at h
      · simp_all
      · exact List.mem_cons_of_mem _ (ih h)

theorem length_erase_lt {name : Char} {value : α} {entries : Dictionary α}
    (h : find? name entries = some value) : (erase name entries).length < entries.length :=
  List.length_filter_lt_length_iff_exists.mpr ⟨(name, value), mem_of_find? h, by simp⟩

end Dictionary

end Wordmill
