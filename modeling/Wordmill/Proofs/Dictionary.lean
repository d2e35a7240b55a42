import Wordmill.Dictionary

/-!
# Looking names up
-/

namespace Wordmill.Dictionary

variable {α : Type}

theorem isSome_find? (name : Char) (entries : Dictionary α) :
    (find? name entries).isSome = entries.hasName name := by
  induction entries with
  | nil => rfl
  | cons entry entries ih =>
      obtain ⟨other, value⟩ := entry
      by_cases h : name = other
      · simp [find?, hasName, h]
      · have hother : (other == name) = false := by simpa using Ne.symm h
        simpa [find?, hasName, h, hother] using ih

theorem find?_eq_none_of_notMem {name : Char} {entries : Dictionary α}
    (h : name ∉ entries.map (·.1)) : find? name entries = none := by
  induction entries with
  | nil => rfl
  | cons entry entries ih =>
      simp only [List.map_cons, List.mem_cons, not_or] at h
      simp [find?, h.1, ih h.2]

theorem hasName_iff {name : Char} {entries : Dictionary α} :
    entries.hasName name = true ↔ name ∈ entries.map (·.1) := by
  simp [hasName]

/-- A new name gets an entry of its own. -/
theorem insert_perm {name : Char} (value : α) {entries : Dictionary α}
    (h : name ∉ entries.map (·.1)) :
    (insert name value entries).Perm ((name, value) :: entries) := by
  induction entries with
  | nil => exact .refl _
  | cons entry entries ih =>
      obtain ⟨other, old⟩ := entry
      simp only [List.map_cons, List.mem_cons, not_or] at h
      simp only [insert, if_neg h.1]
      split
      · exact .refl _
      · exact ((ih h.2).cons _).trans (.swap _ _ _)

theorem length_insert_le (name : Char) (value : α) (entries : Dictionary α) :
    (insert name value entries).length ≤ entries.length + 1 := by
  induction entries with
  | nil => exact Nat.le_refl _
  | cons entry entries ih =>
      obtain ⟨other, old⟩ := entry
      simp only [insert]
      split
      · exact Nat.le_refl _
      · split
        · exact Nat.le_succ _
        · exact Nat.succ_le_succ ih

theorem find?_filter (keep : Char → Bool) (name : Char) (entries : Dictionary α) :
    find? name (entries.filter fun entry => keep entry.1) =
      if keep name then find? name entries else none := by
  induction entries with
  | nil => simp [find?]
  | cons entry entries ih =>
      obtain ⟨other, value⟩ := entry
      by_cases hother : keep other = true
      · rw [List.filter_cons_of_pos (by exact hother)]
        simp only [find?, ih]
        by_cases h : name = other
        · simp [h, hother]
        · simp [h]
      · rw [List.filter_cons_of_neg (by exact hother), ih]
        by_cases h : name = other
        · simp [h, hother]
        · simp [find?, h]

theorem filter_insert (keep : Char → Bool) {name : Char} (h : keep name = false) (value : α)
    (entries : Dictionary α) :
    (insert name value entries).filter (fun entry => keep entry.1) =
      entries.filter fun entry => keep entry.1 := by
  induction entries with
  | nil => simp [insert, h]
  | cons entry entries ih =>
      simp only [insert]
      split
      · rw [List.filter_cons_of_neg (by simp [h])]
      · split
        · rename_i heq
          rw [List.filter_cons_of_neg (by simp [h]), List.filter_cons_of_neg (by simp [← heq, h])]
        · rw [List.filter_cons, List.filter_cons, ih]

theorem insert_comm_of_lt {name other : Char} (h : name < other) (value otherValue : α)
    (entries : Dictionary α) :
    insert name value (insert other otherValue entries) =
      insert other otherValue (insert name value entries) := by
  have hne : name ≠ other := fun heq => Char.lt_irrefl _ (heq ▸ h)
  have hge : ¬ other < name := Char.lt_asymm h
  induction entries with
  | nil => simp [insert, h, hge, hne.symm]
  | cons entry entries ih =>
      -- an entry that stands in front of the lesser name stands in front of both
      have hpresent : entry.1 < name → entry.1 < other := fun hlt => Char.lt_trans hlt h
      grind [insert]

/-- Different names may be entered in either order. -/
theorem insert_comm {name other : Char} (h : name ≠ other) (value otherValue : α)
    (entries : Dictionary α) :
    insert name value (insert other otherValue entries) =
      insert other otherValue (insert name value entries) := by
  by_cases hlt : name < other
  · exact insert_comm_of_lt hlt value otherValue entries
  · have hgt : other < name :=
      Char.not_le.mp fun hle => h (Char.le_antisymm hle (Char.not_lt.mp hlt))
    exact (insert_comm_of_lt hgt otherValue value entries).symm

theorem find?_erase (name other : Char) (entries : Dictionary α) :
    find? other (erase name entries) = if other = name then none else find? other entries := by
  rw [erase, find?_filter (· != name)]
  by_cases h : other = name <;> simp [h]

/-- Under a new name the new value is found, if no other entry gets that name. -/
theorem find?_map {β : Type} (newName : Char → Char) (newValue : α → β) (name : Char)
    {entries : Dictionary α}
    (h : ∀ entry ∈ entries, newName entry.1 = newName name → entry.1 = name) :
    find? (newName name) (entries.map fun entry => (newName entry.1, newValue entry.2)) =
      (find? name entries).map newValue := by
  induction entries with
  | nil => rfl
  | cons entry entries ih =>
      obtain ⟨other, value⟩ := entry
      obtain ⟨hother, hentries⟩ := List.forall_mem_cons.mp h
      simp only [List.map_cons, find?]
      by_cases heq : name = other
      · rw [if_pos heq, if_pos (congrArg newName heq)]
        rfl
      · rw [if_neg heq, if_neg fun hsame => heq (hother hsame.symm).symm]
        exact ih hentries

def insertAll (entries : List (Char × α)) (dictionary : Dictionary α) : Dictionary α :=
  entries.foldl (fun dictionary entry => dictionary.insert entry.1 entry.2) dictionary

/-- Names entered once each are found where they were entered. -/
theorem find?_insertAll (name : Char) (entries dictionary : Dictionary α)
    (h : (entries.map (·.1)).Nodup) :
    find? name (insertAll entries dictionary) =
      (find? name entries).or (find? name dictionary) := by
  induction entries generalizing dictionary with
  | nil => rfl
  | cons entry entries ih =>
      obtain ⟨other, value⟩ := entry
      simp only [List.map_cons, List.nodup_cons] at h
      have hrest := ih (dictionary.insert other value) h.2
      simp only [insertAll, List.foldl_cons] at hrest ⊢
      rw [hrest, find?_insert]
      by_cases hname : name = other
      · subst hname
        simp [find?, find?_eq_none_of_notMem h.1]
      · simp [find?, hname]

/-! ## Order -/

/-- The names ascend, so there is one entry for each. -/
def Sorted (entries : Dictionary α) : Prop :=
  List.Pairwise (fun entry later => entry.1 < later.1) entries

theorem sorted_cons {name : Char} {value : α} {entries : Dictionary α} :
    Sorted ((name, value) :: entries) ↔ (∀ entry ∈ entries, name < entry.1) ∧ Sorted entries :=
  List.pairwise_cons

private theorem mem_of_mem_insert {name : Char} {value : α} {entries : Dictionary α}
    {entry : Char × α}
    (h : entry ∈ insert name value entries) : entry = (name, value) ∨ entry ∈ entries := by
  induction entries with
  | nil => exact .inl (List.mem_singleton.mp h)
  | cons first entries ih =>
      obtain ⟨other, old⟩ := first
      simp only [insert] at h
      split at h
      · exact List.mem_cons.mp h
      · split at h
        · exact (List.mem_cons.mp h).imp_right (List.mem_cons_of_mem _)
        · rcases List.mem_cons.mp h with rfl | h
          · exact .inr List.mem_cons_self
          · exact (ih h).imp_right (List.mem_cons_of_mem _)

theorem Sorted.insert {name : Char} (value : α) {entries : Dictionary α} (h : entries.Sorted) :
    (entries.insert name value).Sorted := by
  induction entries with
  | nil => exact List.pairwise_singleton _ _
  | cons first entries ih =>
      obtain ⟨other, old⟩ := first
      obtain ⟨hother, hentries⟩ := sorted_cons.mp h
      simp only [Dictionary.insert]
      split
      · rename_i hlt
        refine sorted_cons.mpr ⟨?_, h⟩
        intro entry hentry
        rcases List.mem_cons.mp hentry with rfl | hentry
        · exact hlt
        · exact Char.lt_trans hlt (hother entry hentry)
      · rename_i hge
        split
        · subst other
          exact sorted_cons.mpr ⟨hother, hentries⟩
        · rename_i hne
          have hlt : other < name :=
            Char.not_le.mp fun hle => hne (Char.le_antisymm hle (Char.not_lt.mp hge))
          refine sorted_cons.mpr ⟨?_, ih hentries⟩
          intro entry hentry
          rcases mem_of_mem_insert hentry with rfl | hentry
          · exact hlt
          · exact hother entry hentry

theorem Sorted.mem_iff {name : Char} {value : α} {entries : Dictionary α} (h : entries.Sorted) :
    (name, value) ∈ entries ↔ find? name entries = some value := by
  refine ⟨fun hmem => ?_, mem_of_find?⟩
  induction entries with
  | nil => contradiction
  | cons first entries ih =>
      obtain ⟨other, old⟩ := first
      obtain ⟨hother, hentries⟩ := sorted_cons.mp h
      rcases List.mem_cons.mp hmem with heq | hmem
      · cases heq
        simp [find?]
      · have hne : name ≠ other := fun heq => Char.lt_irrefl _ (heq ▸ hother _ hmem)
        rw [find?, if_neg hne]
        exact ih hentries hmem

/-- Sorted dictionaries in which the same is found are the same. -/
theorem Sorted.ext {first second : Dictionary α} (hfirst : first.Sorted) (hsecond : second.Sorted)
    (h : ∀ name, find? name first = find? name second) : first = second := by
  have hnodup {entries : Dictionary α} (hentries : entries.Sorted) : List.Nodup entries := by
    refine List.Pairwise.imp ?_ hentries
    rintro entry _ hlt rfl
    exact Char.lt_irrefl _ hlt
  refine List.Perm.eq_of_pairwise ?_ hfirst hsecond
    ((List.perm_ext_iff_of_nodup (hnodup hfirst) (hnodup hsecond)).mpr ?_)
  · intro entry other _ _ hlt hgt
    exact absurd hgt (Char.lt_asymm hlt)
  · rintro ⟨name, value⟩
    rw [hfirst.mem_iff, hsecond.mem_iff, h]

end Wordmill.Dictionary
