import Wordmill.Grammar.Basic
import Wordmill.Proofs.Dictionary

/-!
# Gathering

The one dictionary of a grammar has the names of all definitions, however deep
they are nested, and under each name what is read from a definition of that name.
-/

namespace Wordmill

namespace Grammar

/-- A definition in the dictionary or nested in one of its definitions. -/
inductive Holds : Dictionary Grammar → Char → Grammar → Prop
  | direct {definitions : Dictionary Grammar} {name : Char} {grammar : Grammar} :
      (name, grammar) ∈ definitions → Holds definitions name grammar
  | nested {definitions : Dictionary Grammar} {name other : Char} {grammar outer : Grammar} :
      (other, outer) ∈ definitions → Holds outer.definitions name grammar →
      Holds definitions name grammar

theorem Holds.trans {definitions : Dictionary Grammar} {name other : Char}
    {grammar outer : Grammar} (houter : Holds definitions other outer)
    (h : Holds outer.definitions name grammar) : Holds definitions name grammar := by
  induction houter with
  | direct hmem => exact .nested hmem h
  | nested hmem _ ih => exact .nested hmem (ih h)

private theorem holds_cons_iff {entry : Char × Grammar} {definitions : Dictionary Grammar}
    {name : Char} {grammar : Grammar} :
    Holds (entry :: definitions) name grammar ↔
      (name, grammar) = entry ∨ Holds entry.2.definitions name grammar ∨
        Holds definitions name grammar := by
  constructor
  · rintro (hmem | ⟨hmem, h⟩)
    · rcases List.mem_cons.mp hmem with rfl | hmem
      · exact .inl rfl
      · exact .inr (.inr (.direct hmem))
    · rcases List.mem_cons.mp hmem with rfl | hmem
      · exact .inr (.inl h)
      · exact .inr (.inr (.nested hmem h))
  · rintro (rfl | h | h)
    · exact .direct List.mem_cons_self
    · exact .nested List.mem_cons_self h
    · cases h with
      | direct hmem => exact .direct (List.mem_cons_of_mem _ hmem)
      | nested hmem h => exact .nested (List.mem_cons_of_mem _ hmem) h

theorem not_holds_nil (name : Char) (grammar : Grammar) : ¬ Holds [] name grammar := by
  rintro (hmem | ⟨hmem, -⟩)
  · contradiction
  · contradiction

/-- What is still to be gathered. -/
def Awaits (current : Dictionary Grammar) (pending : List (Dictionary Grammar)) (name : Char)
    (grammar : Grammar) : Prop :=
  ∃ definitions ∈ current :: pending, Holds definitions name grammar

variable {current : Dictionary Grammar} {pending : List (Dictionary Grammar)}

theorem awaits_nil_iff {next : Dictionary Grammar} {name : Char} {grammar : Grammar} :
    Awaits [] (next :: pending) name grammar ↔ Awaits next pending name grammar := by
  simp [Awaits, not_holds_nil]

theorem awaits_cons_iff {first name : Char} {source : List Char} {nested : Dictionary Grammar}
    {grammar : Grammar} :
    Awaits ((first, mk source nested) :: current) pending name grammar ↔
      (name, grammar) = (first, mk source nested) ∨
        Awaits current (nested :: pending) name grammar := by
  simp only [Awaits, List.mem_cons, exists_eq_or_imp, holds_cons_iff, definitions]
  grind

/-- Every name is kept, the names gathered before as well as those that waited. -/
theorem hasName_gather {found result : Dictionary Pattern} {name : Char}
    (h : gather current pending found = .ok result)
    (hname : found.hasName name = true ∨ ∃ grammar, Awaits current pending name grammar) :
    result.hasName name = true := by
  fun_induction gather current pending found with
  | case1 found =>
      cases h
      rcases hname with hname | ⟨grammar, definitions, hmem, hholds⟩
      · exact hname
      · cases List.mem_singleton.mp hmem
        exact absurd hholds (not_holds_nil name grammar)
  | case2 found next pending ih =>
      apply ih h
      simpa only [awaits_nil_iff] using hname
  | case3 found first source nested current pending hfirst ih =>
      apply ih h
      rcases hname with hname | ⟨grammar, hawaits⟩
      · exact .inl hname
      · rcases awaits_cons_iff.mp hawaits with heq | hawaits
        · cases heq
          exact .inl hfirst
        · exact .inr ⟨grammar, hawaits⟩
  | case4 => contradiction
  | case5 found first source nested current pending hfirst pattern hparse ih =>
      apply ih h
      rw [← Dictionary.isSome_find?, Dictionary.find?_insert]
      rcases hname with hname | ⟨grammar, hawaits⟩
      · left
        split
        · rfl
        · rwa [Dictionary.isSome_find?]
      · rcases awaits_cons_iff.mp hawaits with heq | hawaits
        · cases heq
          simp
        · exact .inr ⟨grammar, hawaits⟩

/-- What is found under a name was there before or is read from a definition of that name. -/
theorem find?_gather {found result : Dictionary Pattern} {name : Char} {pattern : Pattern}
    (h : gather current pending found = .ok result) (hfind : result.find? name = some pattern) :
    found.find? name = some pattern ∨
      ∃ grammar, Awaits current pending name grammar ∧
        Pattern.parse grammar.source = .ok pattern := by
  fun_induction gather current pending found with
  | case1 found =>
      cases h
      exact .inl hfind
  | case2 found next pending ih =>
      simpa only [awaits_nil_iff] using ih h
  | case3 found first source nested current pending hfirst ih =>
      refine (ih h).imp_right ?_
      rintro ⟨grammar, hawaits, hparse⟩
      exact ⟨grammar, awaits_cons_iff.mpr (.inr hawaits), hparse⟩
  | case4 => contradiction
  | case5 found first source nested current pending hfirst read hread ih =>
      rcases ih h with hfound | ⟨grammar, hawaits, hparse⟩
      · rw [Dictionary.find?_insert] at hfound
        split at hfound
        · rename_i heq
          cases heq
          cases hfound
          exact .inr ⟨mk source nested, awaits_cons_iff.mpr (.inl rfl), hread⟩
        · exact .inl hfound
      · exact .inr ⟨grammar, awaits_cons_iff.mpr (.inr hawaits), hparse⟩

/-! ## The dictionary of a grammar -/

variable {grammar : Grammar} {definitions : Dictionary Pattern}

theorem hasName_patterns {name : Char} {held : Grammar} (h : grammar.patterns = .ok definitions)
    (hheld : Holds grammar.definitions name held) : definitions.hasName name = true :=
  hasName_gather h (.inr ⟨held, grammar.definitions, List.mem_cons_self, hheld⟩)

theorem find?_patterns {name : Char} {pattern : Pattern} (h : grammar.patterns = .ok definitions)
    (hfind : definitions.find? name = some pattern) :
    ∃ held, Holds grammar.definitions name held ∧ Pattern.parse held.source = .ok pattern := by
  rcases find?_gather h hfind with hfound | ⟨held, ⟨found, hmem, hheld⟩, hparse⟩
  · contradiction
  · cases List.mem_singleton.mp hmem
    exact ⟨held, hheld, hparse⟩

theorem holds_of_hasName {name : Char} (h : grammar.patterns = .ok definitions)
    (hname : definitions.hasName name = true) :
    ∃ held, Holds grammar.definitions name held := by
  rw [← Dictionary.isSome_find?, Option.isSome_iff_exists] at hname
  obtain ⟨pattern, hfind⟩ := hname
  obtain ⟨held, hheld, -⟩ := find?_patterns h hfind
  exact ⟨held, hheld⟩

end Grammar

end Wordmill
