import Wordmill.Proofs.Grammar.Gathering

/-!
# The order of gathering

The definitions of a dictionary are visited from the least name up, and then
what is nested in them from the greatest name down.  Of the definitions with one
name only the one that is visited first is read, but what is nested in the
others is visited like the rest.
-/

namespace Wordmill

namespace Grammar

private theorem sizeOf_nested_lt {entry : Char × Grammar} {entries : Dictionary Grammar}
    (h : entry ∈ entries) : sizeOf entry.2.definitions < sizeOf entries := by
  obtain ⟨name, source, nested⟩ := entry
  have hentry := List.sizeOf_lt_of_mem h
  simp only [Prod.mk.sizeOf_spec, mk.sizeOf_spec] at hentry
  change sizeOf nested < sizeOf entries
  omega

/-- The definitions of a dictionary and everything nested in them, as they are visited. -/
def visits (entries : Dictionary Grammar) : List (Char × Grammar) :=
  entries ++ entries.attach.reverse.flatMap fun entry => visits entry.1.2.definitions
termination_by sizeOf entries
decreasing_by exact sizeOf_nested_lt entry.2

theorem visits_eq (entries : Dictionary Grammar) :
    visits entries =
      entries ++ entries.reverse.flatMap fun entry => visits entry.2.definitions := by
  rw [visits]
  congr 1
  calc entries.attach.reverse.flatMap (fun entry => visits entry.1.2.definitions)
      = (entries.attach.reverse.map (·.1)).flatMap fun entry => visits entry.2.definitions := by
        rw [List.flatMap_map]
    _ = entries.reverse.flatMap fun entry => visits entry.2.definitions := by
        rw [List.map_reverse, List.attach_map_subtype_val]

/-- Everything is visited, also what is nested in a definition that is not read. -/
theorem mem_visits_iff {name : Char} {held : Grammar} (entries : Dictionary Grammar) :
    (name, held) ∈ visits entries ↔ Holds entries name held := by
  fun_induction visits entries with
  | case1 entries ih =>
      have hnested (entry : Char × Grammar) (hentry : entry ∈ entries) :
          (name, held) ∈ visits entry.2.definitions ↔ Holds entry.2.definitions name held :=
        ih ⟨entry, hentry⟩
      rw [List.mem_append]
      constructor
      · rintro (hmem | hmem)
        · exact .direct hmem
        · obtain ⟨⟨entry, hentry⟩, -, hmem⟩ := List.mem_flatMap.mp hmem
          exact .nested hentry ((hnested entry hentry).mp hmem)
      · rintro (hmem | ⟨hentry, hheld⟩)
        · exact .inl hmem
        · refine .inr (List.mem_flatMap.mpr ⟨⟨_, hentry⟩, by simp, ?_⟩)
          exact (hnested _ hentry).mpr hheld

/-- What is left of the order when `current` is under way and `pending` waits. -/
def remaining (current : Dictionary Grammar) (pending : List (Dictionary Grammar)) :
    List (Char × Grammar) :=
  current ++ (current.reverse.map (·.2.definitions) ++ pending).flatMap visits

private theorem remaining_nil (next : Dictionary Grammar) (pending : List (Dictionary Grammar)) :
    remaining [] (next :: pending) = remaining next pending := by
  simp only [remaining, List.reverse_nil, List.map_nil, List.nil_append, List.flatMap_cons,
    List.flatMap_append, List.flatMap_map, visits_eq next, List.append_assoc]

theorem remaining_cons (entry : Char × Grammar) (current : Dictionary Grammar)
    (pending : List (Dictionary Grammar)) :
    remaining (entry :: current) pending =
      entry :: remaining current (entry.2.definitions :: pending) := by
  simp [remaining]

/-- The first of each name that has not been seen. -/
def unseen (seen : List Char) : List (Char × Grammar) → List (Char × Grammar)
  | [] => []
  | entry :: entries =>
      if entry.1 ∈ seen then unseen seen entries
      else entry :: unseen (entry.1 :: seen) entries

/-- Read one definition after another, up to the first that cannot be read. -/
def readEach : List (Char × Grammar) → Dictionary Pattern →
    Except SyntaxError (Dictionary Pattern)
  | [], found => .ok found
  | (name, grammar) :: entries, found =>
      match Pattern.parse grammar.source with
      | .error e => .error e
      | .ok pattern => readEach entries (found.insert name pattern)

/-- Gathering goes through the rest of the order and reads what is new. -/
theorem gather_eq_readEach (current : Dictionary Grammar) (pending : List (Dictionary Grammar))
    (found : Dictionary Pattern) (seen : List Char)
    (hseen : ∀ name, found.hasName name = true ↔ name ∈ seen) :
    gather current pending found = readEach (unseen seen (remaining current pending)) found := by
  fun_induction gather current pending found generalizing seen with
  | case1 found => rfl
  | case2 found next pending ih => rw [ih seen hseen, remaining_nil]
  | case3 found name source nested current pending hname ih =>
      rw [ih seen hseen, remaining_cons, unseen, if_pos ((hseen name).mp hname)]
      rfl
  | case4 found name source nested current pending hname e hparse =>
      rw [remaining_cons, unseen, if_neg fun hmem => hname ((hseen name).mpr hmem), readEach]
      simp [Grammar.source, hparse]
  | case5 found name source nested current pending hname pattern hparse ih =>
      have hnext (other : Char) :
          (found.insert name pattern).hasName other = true ↔ other ∈ name :: seen := by
        rw [← Dictionary.isSome_find?, Dictionary.find?_insert, List.mem_cons, ← hseen,
          ← Dictionary.isSome_find?]
        split <;> simp_all
      rw [ih (name :: seen) hnext, remaining_cons, unseen,
        if_neg fun hmem => hname ((hseen name).mpr hmem), readEach]
      simp only [Grammar.source, hparse]
      rfl

/-! ## What is read -/

/-- The first definition of each name. -/
def firsts (entries : List (Char × Grammar)) : List (Char × Grammar) := unseen [] entries

def syntaxError? (entry : Char × Grammar) : Option SyntaxError :=
  match Pattern.parse entry.2.source with
  | .error e => some e
  | .ok _ => none

private theorem patterns_eq_readEach (grammar : Grammar) :
    grammar.patterns = readEach (firsts (visits grammar.definitions)) [] := by
  have horder : remaining grammar.definitions [] = visits grammar.definitions := by
    rw [visits_eq, remaining, List.append_nil, List.flatMap_map]
  rw [patterns, gather_eq_readEach _ _ _ [] fun name => by simp [Dictionary.hasName], horder]
  rfl

private theorem unseen_sublist (seen : List Char) (entries : List (Char × Grammar)) :
    (unseen seen entries).Sublist entries := by
  induction entries generalizing seen with
  | nil => exact .slnil
  | cons entry entries ih =>
      rw [unseen]
      split
      · exact (ih seen).cons entry
      · exact (ih _).cons_cons entry

private theorem notMem_of_mem_unseen {entry : Char × Grammar} {seen : List Char}
    {entries : List (Char × Grammar)} (h : entry ∈ unseen seen entries) : entry.1 ∉ seen := by
  induction entries generalizing seen with
  | nil => contradiction
  | cons first entries ih =>
      rw [unseen] at h
      split at h
      · exact ih h
      · rename_i hfirst
        rcases List.mem_cons.mp h with rfl | h
        · exact hfirst
        · exact fun hmem => ih h (List.mem_cons_of_mem _ hmem)

theorem nodup_unseen (seen : List Char) (entries : List (Char × Grammar)) :
    ((unseen seen entries).map (·.1)).Nodup := by
  induction entries generalizing seen with
  | nil => exact List.nodup_nil
  | cons entry entries ih =>
      rw [unseen]
      split
      · exact ih seen
      · refine List.nodup_cons.mpr ⟨fun hmem => ?_, ih _⟩
        obtain ⟨other, hother, heq⟩ := List.mem_map.mp hmem
        exact notMem_of_mem_unseen hother (heq ▸ List.mem_cons_self)

private theorem find?_unseen (name : Char) (seen : List Char) (entries : List (Char × Grammar)) :
    Dictionary.find? name (unseen seen entries) =
      if name ∈ seen then none else Dictionary.find? name entries := by
  induction entries generalizing seen with
  | nil => simp [unseen, Dictionary.find?]
  | cons entry entries ih =>
      obtain ⟨other, grammar⟩ := entry
      rw [unseen]
      by_cases hname : name = other
      · subst hname
        split <;> simp_all [Dictionary.find?]
      · split <;> simp [ih, Dictionary.find?, hname]

theorem find?_firsts (name : Char) (entries : List (Char × Grammar)) :
    Dictionary.find? name (firsts entries) = Dictionary.find? name entries := by
  rw [firsts, find?_unseen, if_neg List.not_mem_nil]

private theorem readEach_eq_error_iff {entries : List (Char × Grammar)} {found : Dictionary Pattern}
    {e : SyntaxError} :
    readEach entries found = .error e ↔ entries.findSome? syntaxError? = some e := by
  induction entries generalizing found with
  | nil => simp [readEach]
  | cons entry entries ih =>
      obtain ⟨name, held⟩ := entry
      rw [readEach, List.findSome?_cons, syntaxError?]
      cases Pattern.parse held.source with
      | error other => simp
      | ok pattern => exact ih

private theorem sorted_readEach {entries : List (Char × Grammar)}
    {found result : Dictionary Pattern}
    (hfound : found.Sorted) (h : readEach entries found = .ok result) : result.Sorted := by
  induction entries generalizing found with
  | nil =>
      cases h
      exact hfound
  | cons entry entries ih =>
      obtain ⟨name, held⟩ := entry
      rw [readEach] at h
      split at h
      · contradiction
      · rename_i pattern _
        exact ih (hfound.insert pattern) h

/-- Under each name stands what is read from its definition. -/
theorem find?_readEach {entries : List (Char × Grammar)} {found result : Dictionary Pattern}
    (hnodup : (entries.map (·.1)).Nodup) (h : readEach entries found = .ok result) (name : Char) :
    result.find? name =
      match Dictionary.find? name entries with
      | some held => (Pattern.parse held.source).toOption
      | none => found.find? name := by
  induction entries generalizing found with
  | nil =>
      cases h
      rfl
  | cons entry entries ih =>
      obtain ⟨other, held⟩ := entry
      rw [List.map_cons, List.nodup_cons] at hnodup
      rw [readEach] at h
      split at h
      · contradiction
      · rename_i pattern hparse
        rw [ih hnodup.2 h, Dictionary.find?, Dictionary.find?_insert]
        by_cases hname : name = other
        · subst hname
          rw [Dictionary.find?_eq_none_of_notMem hnodup.1]
          simp [hparse, Except.toOption]
        · simp [hname]

/-- A definition that is read can be read. -/
theorem exists_pattern_of_mem {entries : List (Char × Grammar)}
    {found result : Dictionary Pattern} (h : readEach entries found = .ok result)
    {entry : Char × Grammar} (hentry : entry ∈ entries) :
    ∃ pattern, Pattern.parse entry.2.source = .ok pattern := by
  induction entries generalizing found with
  | nil => contradiction
  | cons first entries ih =>
      obtain ⟨name, held⟩ := first
      rw [readEach] at h
      split at h
      · contradiction
      · rename_i pattern hparse
        rcases List.mem_cons.mp hentry with rfl | hentry
        · exact ⟨pattern, hparse⟩
        · exact ih h hentry

/--
The dictionary of a grammar is read from the first definition of each name, in
the order of the visits.  The first that cannot be read decides the error, and
without one the dictionary has every name of the tree with what is read from its
first definition.  What the other definitions say is never read, although
everything nested in them is visited.
-/
theorem patterns_in_order (grammar : Grammar) :
    (∀ name held, (name, held) ∈ visits grammar.definitions ↔
        Holds grammar.definitions name held) ∧
      grammar.patterns = readEach (firsts (visits grammar.definitions)) [] ∧
      (firsts (visits grammar.definitions)).Sublist (visits grammar.definitions) ∧
      ((firsts (visits grammar.definitions)).map (·.1)).Nodup ∧
      (∀ name, Dictionary.find? name (firsts (visits grammar.definitions)) =
        Dictionary.find? name (visits grammar.definitions)) ∧
      (∀ e, grammar.patterns = .error e ↔
        (firsts (visits grammar.definitions)).findSome? syntaxError? = some e) ∧
      ∀ found, grammar.patterns = .ok found →
        found.Sorted ∧
          (∀ name, found.hasName name = true ↔ ∃ held, Holds grammar.definitions name held) ∧
          ∀ name held, Dictionary.find? name (visits grammar.definitions) = some held →
            ∃ pattern, Pattern.parse held.source = .ok pattern ∧
              found.find? name = some pattern := by
  have hread := patterns_eq_readEach grammar
  refine ⟨fun name held => mem_visits_iff grammar.definitions, hread, unseen_sublist _ _,
    nodup_unseen _ _, fun name => find?_firsts name _, ?_, ?_⟩
  · intro e
    rw [hread]
    exact readEach_eq_error_iff
  · intro found hfound
    refine ⟨?_, fun name => ⟨holds_of_hasName hfound, ?_⟩, ?_⟩
    · exact sorted_readEach List.Pairwise.nil (hread.symm.trans hfound)
    · rintro ⟨held, hheld⟩
      exact hasName_patterns hfound hheld
    · intro name held hheld
      rw [hread] at hfound
      rw [← find?_firsts] at hheld
      obtain ⟨pattern, hparse⟩ := exists_pattern_of_mem hfound (Dictionary.mem_of_find? hheld)
      refine ⟨pattern, hparse, ?_⟩
      rw [find?_readEach (nodup_unseen _ _) hfound name]
      change (match Dictionary.find? name (firsts (visits grammar.definitions)) with
        | some held => (Pattern.parse held.source).toOption
        | none => none) = _
      simp [hheld, hparse, Except.toOption]

/-- Under `B` there is another `A`, which cannot be read, and a `C` before that of `A`. -/
def overlaid : Grammar :=
  .mk ['A', 'B'] [
    ('A', .mk ['a', 'C'] [('C', .mk ['c'] [])]),
    ('B', .mk ['A', 'C'] [('A', .mk ['(', 'D'] [('D', .mk ['d'] [])]), ('C', .mk ['z'] [])])]

theorem visits_overlaid :
    visits overlaid.definitions =
      overlaid.definitions ++
        [('A', .mk ['(', 'D'] [('D', .mk ['d'] [])]), ('C', .mk ['z'] []), ('D', .mk ['d'] []),
          ('C', .mk ['c'] [])] := by
  have hnil : visits [] = [] := by
    rw [visits_eq]
    rfl
  have hsingle (entry : Char × Grammar) :
      visits [entry] = entry :: visits entry.2.definitions := by
    rw [visits_eq]
    simp
  have hpair (first second : Char × Grammar) :
      visits [first, second] =
        first :: second :: (visits second.2.definitions ++ visits first.2.definitions) := by
    rw [visits_eq]
    simp
  simp [overlaid, definitions, hpair, hsingle, hnil]

/-- What stands under `B` is visited first, and its `D` although its `A` is not read. -/
theorem patterns_overlaid :
    ∃ found, overlaid.patterns = .ok found ∧
      Dictionary.find? 'C' (visits overlaid.definitions) = some (.mk ['z'] []) ∧
      (∃ pattern, Pattern.parse ['z'] = .ok pattern ∧ found.find? 'C' = some pattern) ∧
      found.hasName 'D' = true := by
  obtain ⟨hvisits, hread, -, -, -, -, hfound⟩ := patterns_in_order overlaid
  rw [visits_overlaid] at hread
  have hpatterns : overlaid.patterns = .ok [('A', .sequence [.text ['a', 'C']]),
      ('B', .sequence [.text ['A', 'C']]), ('C', .sequence [.text ['z']]),
      ('D', .sequence [.text ['d']])] := hread
  have hfind : Dictionary.find? 'C' (visits overlaid.definitions) = some (.mk ['z'] []) := by
    rw [visits_overlaid]
    rfl
  obtain ⟨-, hnames, hvalues⟩ := hfound _ hpatterns
  refine ⟨_, hpatterns, hfind, hvalues 'C' _ hfind, (hnames 'D').mpr ⟨.mk ['d'] [], ?_⟩⟩
  rw [← hvisits, visits_overlaid]
  exact List.mem_of_getElem? (i := 4) rfl

end Grammar

end Wordmill
