import Wordmill.Proofs.Bytecode.Assumptions
import Wordmill.Proofs.Grammar.Gathering
import Wordmill.Proofs.Grammar.Scopes
import Wordmill.Proofs.Pattern.Soundness

/-!
# What compiling a grammar comes to

Nothing in a pattern that was read is empty, and everything that is compiled was
read.  So a grammar fails to compile only because it cannot be read or because
its code grows too large.
-/

namespace Wordmill

open Layout

namespace Pattern

theorem mem_nodesEach_iff {patterns : List Pattern} {node : Pattern} :
    node ∈ nodesEach patterns ↔ ∃ pattern ∈ patterns, node ∈ pattern.nodes := by
  induction patterns with
  | nil => simp [nodesEach]
  | cons pattern patterns ih => simp [nodesEach, ih]

/-- Nothing to be found in it is empty. -/
def Filled (pattern : Pattern) : Prop := ∀ node ∈ pattern.nodes, node.isEmpty = false

theorem filled_of_isAtom {atom : Pattern} (h : IsAtom atom) : atom.Filled := by
  intro node hnode
  cases h with
  | text hsome _ | quoted hsome _ =>
      cases List.mem_singleton.mp hnode
      exact List.isEmpty_eq_false_iff.mpr hsome

mutual

theorem filled_of_normal {pattern : Pattern} (h : Normal pattern) : pattern.Filled := by
  intro node hnode
  cases h with
  | sequence hsome hgroups _ =>
      rcases List.mem_cons.mp hnode with rfl | hnode
      · exact List.isEmpty_eq_false_iff.mpr hsome
      · obtain ⟨group, hgroup, hnode⟩ := mem_nodesEach_iff.mp hnode
        exact filled_of_isGroup (hgroups group hgroup) node hnode

private theorem filled_of_isGroup {group : Pattern} (h : IsGroup group) : group.Filled := by
  intro node hnode
  cases h with
  | atom hatom => exact filled_of_isAtom hatom node hnode
  | choice hlength hatoms =>
      rcases List.mem_cons.mp hnode with rfl | hnode
      · exact decide_eq_false (Nat.not_lt.mpr hlength)
      · obtain ⟨atom, hatom, hnode⟩ := mem_nodesEach_iff.mp hnode
        exact filled_of_isAtom (hatoms atom hatom) node hnode
  | optional hbody =>
      rcases List.mem_cons.mp hnode with rfl | hnode
      · rfl
      · exact filled_of_normal hbody node hnode
  | nested hnormal => exact filled_of_normal hnormal node hnode

end

theorem filled_of_parse {source : List Char} {pattern : Pattern}
    (h : parse source = .ok pattern) : pattern.Filled :=
  filled_of_normal (sound_parse h).1

end Pattern

/-- Where nothing is empty, the only thing that can go wrong is an address. -/
theorem compile_of_filled {pattern : Pattern} {definitions : Dictionary Pattern}
    (hpattern : pattern.Filled)
    (hsubroutines : ∀ entry ∈ subroutines definitions pattern, entry.2.Filled) :
    (∃ code, compile pattern definitions = .ok code) ∨
      ∃ n, 0xFFFF < n ∧ compile pattern definitions = .error (.operand (.tooLarge n)) := by
  rw [compile_eq, compileFault_eq_findSome?]
  cases hfirst : (checks definitions pattern).findSome? Check.failure with
  | none => exact .inl ⟨_, rfl⟩
  | some e =>
      right
      obtain ⟨check, hcheck, hfailure⟩ := List.exists_of_findSome?_eq_some hfirst
      rcases failure_cases hfailure with rfl | ⟨n, hn, rfl⟩
      · -- a check that finds something empty is one of a node, and the nodes are known
        cases check with
        | node entered =>
            have hmem : entered ∈ (checks definitions pattern).filterMap Check.node? :=
              List.mem_filterMap.mpr ⟨_, hcheck, rfl⟩
            rw [filterMap_node?_checks, List.mem_append, List.mem_flatMap] at hmem
            have hfilled : entered.isEmpty = false := by
              rcases hmem with hmem | ⟨entry, hentry, hmem⟩
              · exact hpattern entered hmem
              · exact hsubroutines entry hentry entered hmem
            simp [Check.failure, hfilled] at hfailure
        | choiceEnd place | subroutine place | table place =>
            simp only [Check.failure, addressFault] at hfailure
            split at hfailure
            · contradiction
            · cases hfailure
      · exact ⟨n, hn, rfl⟩

namespace Grammar

/-- Subroutines are made of what was read from definitions of the grammar. -/
theorem exists_holds_of_mem_subroutines {grammar : Grammar} {definitions : Dictionary Pattern}
    (hdefinitions : grammar.patterns = .ok definitions) {root : Pattern}
    {entry : Char × Pattern} (h : entry ∈ subroutines definitions root) :
    ∃ held, Holds grammar.definitions entry.1 held ∧
      Pattern.parse held.source = .ok entry.2 :=
  find?_patterns hdefinitions (find?_of_mem_reached definitions h)

/--
A grammar that can be read compiles unless an address becomes too large: nothing
in a pattern that was read is empty, whether it becomes primary code or a
subroutine.
-/
theorem compile_outcome (grammar : Grammar) :
    ((∃ code, grammar.compile = .ok code) ∨
      (∃ e, grammar.compile = .error (.pattern e)) ∨
        ∃ n, 0xFFFF < n ∧
          grammar.compile = .error (.compile (.operand (.tooLarge n)))) ∧
      (∀ source pattern, Pattern.parse source = .ok pattern →
        ∀ node ∈ pattern.nodes, node.isEmpty = false) ∧
      ∀ root definitions, Pattern.parse grammar.source = .ok root →
        grammar.patterns = .ok definitions → ∀ entry ∈ subroutines definitions root,
          ∃ held, Holds grammar.definitions entry.1 held ∧
            Pattern.parse held.source = .ok entry.2 := by
  refine ⟨?_, fun _ _ hparse => Pattern.filled_of_parse hparse,
    fun _ _ _ hdefinitions _ => exists_holds_of_mem_subroutines hdefinitions⟩
  unfold Grammar.compile
  cases hroot : Pattern.parse grammar.source with
  | error e => exact .inr (.inl ⟨e, rfl⟩)
  | ok root =>
      cases hdefinitions : grammar.patterns with
      | error e => exact .inr (.inl ⟨e, rfl⟩)
      | ok definitions =>
          have hsubroutines : ∀ entry ∈ subroutines definitions root, entry.2.Filled := by
            intro entry hentry
            obtain ⟨held, -, hparse⟩ := exists_holds_of_mem_subroutines hdefinitions hentry
            exact Pattern.filled_of_parse hparse
          rcases compile_of_filled (Pattern.filled_of_parse hroot) hsubroutines with
            ⟨code, hcode⟩ | ⟨n, hn, hcode⟩
          · exact .inl ⟨code, by simp only [hcode]⟩
          · exact .inr (.inr ⟨n, hn, by simp only [hcode]⟩)

/-- Quotes that end with the text, and the nasals that the root reaches through the consonants. -/
theorem filled_syllables :
    Pattern.parse ['[', '(', 'a', '/', '"', 'b', '"', ')', ']', '"', 'c'] =
        .ok (.sequence [.sequence [.optional (.sequence [.choice [.text ['a'], .quoted ['b']]])],
          .quoted ['c']]) ∧
      (∀ node ∈ Pattern.nodes (.sequence [.sequence [.optional (.sequence
          [.choice [.text ['a'], .quoted ['b']]])], .quoted ['c']]), node.isEmpty = false) ∧
      Pattern.parse syllables.source = .ok syllablePattern ∧
      syllables.patterns = .ok syllableDefinitions ∧
      ∃ held, Holds syllables.definitions 'N' held ∧
        Pattern.parse held.source = .ok nasalPattern := by
  have hparse : Pattern.parse ['[', '(', 'a', '/', '"', 'b', '"', ')', ']', '"', 'c'] =
      .ok (.sequence [.sequence [.optional (.sequence [.choice [.text ['a'], .quoted ['b']]])],
        .quoted ['c']]) := by rfl
  have hroot : Pattern.parse syllables.source = .ok syllablePattern := by rfl
  have hmem : ('N', nasalPattern) ∈ subroutines syllableDefinitions syllablePattern := by
    rw [subroutines_syllables]
    exact List.mem_cons_of_mem _ List.mem_cons_self
  obtain ⟨-, hfilled, hread⟩ := compile_outcome syllables
  exact ⟨hparse, hfilled _ _ hparse, hroot, patterns_syllables,
    hread _ _ hroot patterns_syllables _ hmem⟩

end Grammar

end Wordmill
