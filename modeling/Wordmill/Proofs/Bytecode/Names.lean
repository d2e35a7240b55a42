import Mathlib.Logic.Equiv.Basic
import Wordmill.Proofs.Bytecode.Renaming

/-!
# What a compilation depends on

Definitions that are not reached leave no trace in the code, nor do the names of
those that are.
-/

namespace Wordmill

namespace Layout

variable (definitions : Dictionary Pattern) (pattern : Pattern)

instance : DecidablePred (Reached definitions pattern) := fun name =>
  decidable_of_iff _ (mem_subroutines_iff definitions pattern name)

/-- The definitions that are reached, in the order in which they stand. -/
def reachedOnly : Dictionary Pattern :=
  definitions.filter fun entry => decide (Reached definitions pattern entry.1)

/-- The characters of unquoted text in the pattern or in a definition that is reached. -/
inductive Occurs : Char → Prop
  | inPattern {c : Char} : c ∈ pattern.unquoted → Occurs c
  | inDefinition {name c : Char} {body : Pattern} : Reached definitions pattern name →
      definitions.find? name = some body → c ∈ body.unquoted → Occurs c

/-- New names for the definitions that are reached; what is no name stays. -/
def renamed (newName : Char → Char) (c : Char) : Char :=
  if Reached definitions pattern c then newName c else c

/-- The definitions that are reached, under their new names and mentioned by them. -/
def renamedDefinitions (newName : Char → Char) : Dictionary Pattern :=
  (reachedOnly definitions pattern).map fun entry =>
    (newName entry.1, entry.2.rename (renamed definitions pattern newName))

variable {definitions pattern} {newName : Char → Char}

theorem reached_iff_occurs {c : Char} :
    Reached definitions pattern c ↔
      Occurs definitions pattern c ∧ definitions.hasName c = true := by
  constructor
  · rintro (hmem | ⟨hreached, hbody, hmem⟩)
    · obtain ⟨hunquoted, hname⟩ := List.mem_filter.mp hmem
      exact ⟨.inPattern hunquoted, hname⟩
    · obtain ⟨hunquoted, hname⟩ := List.mem_filter.mp hmem
      exact ⟨.inDefinition hreached hbody hunquoted, hname⟩
  · rintro ⟨hunquoted | ⟨hreached, hbody, hunquoted⟩, hname⟩
    · exact .mentioned (List.mem_filter.mpr ⟨hunquoted, hname⟩)
    · exact .through hreached hbody (List.mem_filter.mpr ⟨hunquoted, hname⟩)

theorem Occurs.closed {name : Char} {body : Pattern} (hname : Occurs definitions pattern name)
    (hbody : definitions.find? name = some body) :
    ∀ c ∈ body.unquoted, Occurs definitions pattern c := by
  intro c hc
  have hdefined : definitions.hasName name = true := by
    rw [← Dictionary.isSome_find?, hbody]
    rfl
  exact .inDefinition (reached_iff_occurs.mpr ⟨hname, hdefined⟩) hbody hc

/-- Among the characters that occur, the definitions that are left are the old ones. -/
theorem find?_reachedOnly {c : Char} (hc : Occurs definitions pattern c) :
    (reachedOnly definitions pattern).find? c = definitions.find? c := by
  rw [reachedOnly, Dictionary.find?_filter fun name => decide (Reached definitions pattern name)]
  split
  · rfl
  · rename_i hreached
    rw [decide_eq_true_eq, reached_iff_occurs, not_and, ← Dictionary.isSome_find?] at hreached
    exact (Option.not_isSome_iff_eq_none.mp (hreached hc)).symm

private theorem renames_reachedOnly :
    Renames id (Occurs definitions pattern) definitions (reachedOnly definitions pattern) where
  injective _ _ h := h
  find?_eq {c} hc := by
    rw [id, find?_reachedOnly hc]
    cases definitions.find? c with
    | none => rfl
    | some body => exact congrArg some body.rename_id.symm
  fixed _ _ := rfl
  closed := Occurs.closed

/-- New names that neither fall together nor stand for themselves anywhere. -/
structure Fresh (definitions : Dictionary Pattern) (pattern : Pattern)
    (newName : Char → Char) : Prop where
  injective {name other : Char} : Reached definitions pattern name →
    Reached definitions pattern other → newName name = newName other → name = other
  ne_literal {name c : Char} : Reached definitions pattern name →
    Occurs definitions pattern c → definitions.hasName c = false → newName name ≠ c

theorem Fresh.injective_renamed (h : Fresh definitions pattern newName) {c d : Char}
    (hc : Occurs definitions pattern c) (hd : Occurs definitions pattern d)
    (heq : renamed definitions pattern newName c = renamed definitions pattern newName d) :
    c = d := by
  have hliteral {c : Char} (hc : Occurs definitions pattern c)
      (hreached : ¬ Reached definitions pattern c) : definitions.hasName c = false := by
    rw [reached_iff_occurs, not_and] at hreached
    exact Bool.eq_false_iff.mpr (hreached hc)
  unfold renamed at heq
  split at heq <;> split at heq
  · exact h.injective ‹_› ‹_› heq
  · exact absurd heq (h.ne_literal ‹_› hd (hliteral hd ‹_›))
  · exact absurd heq.symm (h.ne_literal ‹_› hc (hliteral hc ‹_›))
  · exact heq

private theorem find?_renamedDefinitions (h : Fresh definitions pattern newName) {c : Char}
    (hc : Occurs definitions pattern c) :
    (renamedDefinitions definitions pattern newName).find?
        (renamed definitions pattern newName c) =
      (definitions.find? c).map (Pattern.rename (renamed definitions pattern newName)) := by
  have hentries : ∀ entry ∈ reachedOnly definitions pattern,
      Reached definitions pattern entry.1 := by
    intro entry hentry
    exact of_decide_eq_true (List.mem_filter.mp hentry).2
  have hmap : renamedDefinitions definitions pattern newName =
      (reachedOnly definitions pattern).map fun entry =>
        (renamed definitions pattern newName entry.1,
          entry.2.rename (renamed definitions pattern newName)) := by
    apply List.map_congr_left
    intro entry hentry
    rw [renamed, if_pos (hentries entry hentry)]
  rw [hmap, Dictionary.find?_map, find?_reachedOnly hc]
  intro entry hentry heq
  exact h.injective_renamed (reached_iff_occurs.mp (hentries entry hentry)).1 hc heq

private theorem renames_renamed (h : Fresh definitions pattern newName)
    {others : Dictionary Pattern}
    (hothers : ∀ c, Occurs definitions pattern c →
      others.find? (renamed definitions pattern newName c) =
        (renamedDefinitions definitions pattern newName).find?
          (renamed definitions pattern newName c)) :
    Renames (renamed definitions pattern newName) (Occurs definitions pattern) definitions
      others where
  injective := h.injective_renamed
  find?_eq hc := (hothers _ hc).trans (find?_renamedDefinitions h hc)
  fixed {c} _ hname := by
    rw [renamed, if_neg]
    rw [reached_iff_occurs, hname]
    simp
  closed := Occurs.closed

end Layout

open Layout

/--
Code and errors depend only on the definitions that are reached.  These may get
other names, as long as the names stay different and none of them is a character
that stands for itself; the new dictionary may list them in any order, and hold
whatever it likes under characters that do not occur.
-/
theorem compile_of_reached (pattern : Pattern) (definitions : Dictionary Pattern) :
    compile pattern (reachedOnly definitions pattern) = compile pattern definitions ∧
    ∀ newName : Char → Char, Fresh definitions pattern newName →
      ∀ others : Dictionary Pattern,
        (∀ c, Occurs definitions pattern c →
          others.find? (renamed definitions pattern newName c) =
            (renamedDefinitions definitions pattern newName).find?
              (renamed definitions pattern newName c)) →
        compile (pattern.rename (renamed definitions pattern newName)) others =
          compile pattern definitions := by
  constructor
  · have hcompile := compile_rename renames_reachedOnly fun c hc =>
      (Occurs.inPattern hc : Occurs definitions pattern c)
    rw [Pattern.rename_id] at hcompile
    exact hcompile
  · intro newName hfresh others hothers
    exact compile_rename (renames_renamed hfresh hothers) fun c hc => .inPattern hc

/-- Two definitions that mention each other, and a malformed one that is out of reach. -/
def looseDefinitions : Dictionary Pattern :=
  [('A', .sequence []), ('B', .sequence [.text ['C', 'x']]),
    ('C', .choice [.text ['m'], .text ['B']])]

def exchange : Char → Char := Equiv.swap 'B' 'C'

theorem reached_loose {c : Char} :
    Reached looseDefinitions (.text ['B', 'y']) c ↔ c = 'B' ∨ c = 'C' := by
  constructor
  · intro h
    induction h with
    | mentioned hmem =>
        rw [show Pattern.mentions looseDefinitions (.text ['B', 'y']) = ['B'] from rfl] at hmem
        exact .inl (List.mem_singleton.mp hmem)
    | through _ hbody hmem ih =>
        rcases ih with rfl | rfl <;> cases hbody
        · exact .inr (List.mem_singleton.mp hmem)
        · exact .inl (List.mem_singleton.mp hmem)
  · have hfirst : Reached looseDefinitions (.text ['B', 'y']) 'B' := .mentioned (by decide)
    rintro (rfl | rfl)
    · exact hfirst
    · exact .through hfirst rfl (by decide)

theorem renamed_loose : renamed looseDefinitions (.text ['B', 'y']) exchange = exchange := by
  funext c
  unfold renamed
  split
  · rfl
  · rename_i hreached
    rw [reached_loose, not_or] at hreached
    exact (Equiv.swap_apply_of_ne_of_ne hreached.1 hreached.2).symm

private theorem renamedDefinitions_loose :
    renamedDefinitions looseDefinitions (.text ['B', 'y']) exchange =
      [('C', .sequence [.text ['B', 'x']]), ('B', .choice [.text ['m'], .text ['C']])] := by
  simp only [renamedDefinitions, reachedOnly, reached_loose, renamed_loose]
  rfl

theorem fresh_loose : Fresh looseDefinitions (.text ['B', 'y']) exchange where
  injective _ _ heq := (Equiv.swap 'B' 'C').injective heq
  ne_literal hname _ hliteral := by
    rintro rfl
    rcases reached_loose.mp hname with rfl | rfl <;> contradiction

theorem compile_exchanged :
    Fresh looseDefinitions (.text ['B', 'y']) exchange ∧
      compile (.text ['C', 'y'])
          [('B', .choice [.text ['m'], .text ['C']]), ('C', .sequence [.text ['B', 'x']])] =
        compile (.text ['B', 'y']) looseDefinitions := by
  refine ⟨fresh_loose, ?_⟩
  have hcompile := (compile_of_reached (.text ['B', 'y']) looseDefinitions).2 exchange fresh_loose
    [('B', .choice [.text ['m'], .text ['C']]), ('C', .sequence [.text ['B', 'x']])] ?_
  · rw [renamed_loose] at hcompile
    exact hcompile
  · intro c _
    rw [renamedDefinitions_loose]
    generalize renamed looseDefinitions (.text ['B', 'y']) exchange c = name
    by_cases hb : name = 'B'
    · subst hb
      rfl
    · simp only [Dictionary.find?, if_neg hb]

end Wordmill
