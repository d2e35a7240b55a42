import Wordmill.Proofs.Pattern.Completeness

/-!
# Text that can still become a pattern

The reader refuses a character only when nothing behind it could help: every
text that was read up to its end can be completed.
-/

namespace Wordmill

/-- The errors that reading a character can end in. -/
def SyntaxError.IsAbout (c : Char) : SyntaxError → Prop
  | .unexpected found => found = c
  | .nestingTooDeep => ∃ bracket : Bracket, c = bracket.opening
  | .unclosed bracket => ∃ other : Bracket, other ≠ bracket ∧ c = other.closing
  | .emptyQuotes => c = '"'
  | .unexpectedEnd => False

/-- The errors that the end of the text can bring to light. -/
def SyntaxError.IsAboutEnd : SyntaxError → Prop
  | .unexpectedEnd | .unclosed _ | .emptyQuotes => True
  | .unexpected _ | .nestingTooDeep => False

namespace Pattern

open Reading

/-! ## Completing what was read -/

/-- The brackets that close all those that are open, the innermost first. -/
def closers (openings : List Opening) : List Char :=
  openings.map fun opening => opening.bracket.closing

/-- What the group being read still lacks, any letter where a group or an alternative is due. -/
def groupEnding (r : Reading) : List Char :=
  match r.place with
  | .betweenGroups => if r.groups.isEmpty then ['a'] else []
  | .afterSlash _ => ['a']
  | .inQuotes _ chars => if chars.isEmpty then ['a', '"'] else ['"']
  | .inText _ _ | .afterQuotes _ _ => []

/-- A text behind which the reader has a whole pattern. -/
def completion (r : Reading) : List Char := groupEnding r ++ closers r.openings

variable {r : Reading} {groups : List Pattern} {openings : List Opening} {inText : Bool}

/-- What is missing is read whatever the nesting, since it opens no bracket. -/
theorem readAll_groupEnding (r : Reading) :
    ∃ next groups inText, r.readAll (groupEnding r) = .ok next ∧
      next.Behind groups r.openings inText ∧ groups ≠ [] := by
  obtain ⟨groups, openings, place⟩ := r
  cases place with
  | betweenGroups =>
      cases groups with
      | nil => exact ⟨_, _, _, rfl, .text, List.cons_ne_nil _ _⟩
      | cons group groups => exact ⟨_, _, _, rfl, .group, List.cons_ne_nil _ _⟩
  | afterSlash done => exact ⟨_, _, _, rfl, .text, List.cons_ne_nil _ _⟩
  | inText done chars => exact ⟨_, _, _, rfl, .text, List.cons_ne_nil _ _⟩
  | inQuotes done chars =>
      cases chars with
      | nil => exact ⟨_, _, _, rfl, .quotes, List.cons_ne_nil _ _⟩
      | cons c chars => exact ⟨_, _, _, rfl, .quotes, List.cons_ne_nil _ _⟩
  | afterQuotes done chars => exact ⟨_, _, _, rfl, .quotes, List.cons_ne_nil _ _⟩

private theorem read_closing {opening : Opening} (h : r.Behind groups (opening :: openings) inText)
    (hsome : groups ≠ []) :
    r.read opening.bracket.closing =
      .ok ⟨enclosed opening.bracket groups :: opening.before, openings, .betweenGroups⟩ := by
  obtain ⟨bracket, before⟩ := opening
  have hclose : r.read bracket.closing =
      Reading.closeBracket ⟨groups, ⟨bracket, before⟩ :: openings, .betweenGroups⟩
        bracket.closing bracket := by
    rw [read_of_behind h (by cases bracket <;> decide) (by cases bracket <;> exact fun _ => rfl)]
    cases bracket <;> rfl
  simp [hclose, closeBracket, hsome]

/-- Behind a group, closing all brackets makes the pattern whole. -/
theorem finish_closers (h : r.Behind groups openings inText) (hsome : groups ≠ []) :
    ∃ last pattern, r.readAll (closers openings) = .ok last ∧ last.finish = .ok pattern := by
  induction openings generalizing r groups inText with
  | nil => exact ⟨r, _, rfl, finish_of_behind h hsome⟩
  | cons opening openings ih =>
      obtain ⟨last, pattern, hread, hfinish⟩ := ih .group
        (List.cons_ne_nil (enclosed opening.bracket groups) opening.before)
      refine ⟨last, pattern, ?_, hfinish⟩
      simp only [closers, List.map_cons, readAll, read_closing h hsome]
      exact hread

private theorem finish_completion (r : Reading) :
    ∃ last pattern, r.readAll (completion r) = .ok last ∧ last.finish = .ok pattern := by
  obtain ⟨next, groups, inText, hnext, hbehind, hsome⟩ := readAll_groupEnding r
  obtain ⟨last, pattern, hlast, hfinish⟩ := finish_closers hbehind hsome
  refine ⟨last, pattern, ?_, hfinish⟩
  simp only [completion, readAll_append, hnext]
  exact hlast

/-! ## Where reading stops -/

/-- The text is read up to the character `c`, which is refused. -/
def RefusedAt (source : List Char) (c : Char) (e : SyntaxError) : Prop :=
  ∃ front back r, source = front ++ c :: back ∧ Reading.start.readAll front = .ok r ∧
    r.read c = .error e

/-- All of the text is read, and it is no pattern yet. -/
def RefusedAtEnd (source : List Char) (e : SyntaxError) : Prop :=
  ∃ r, Reading.start.readAll source = .ok r ∧ r.finish = .error e

private theorem readAll_eq_error {r : Reading} {source : List Char} {e : SyntaxError}
    (h : r.readAll source = .error e) :
    ∃ front c back next, source = front ++ c :: back ∧ r.readAll front = .ok next ∧
      next.read c = .error e := by
  induction source generalizing r with
  | nil => contradiction
  | cons c source ih =>
      cases hread : r.read c with
      | error found =>
          simp only [readAll, hread] at h
          cases h
          exact ⟨[], c, source, r, rfl, rfl, hread⟩
      | ok next =>
          simp only [readAll, hread] at h
          obtain ⟨front, d, back, last, rfl, hfront, hlast⟩ := ih h
          refine ⟨c :: front, d, back, last, rfl, ?_, hlast⟩
          simp only [readAll, hread]
          exact hfront

theorem refusedAt_iff {source : List Char} {e : SyntaxError} :
    (∃ c, RefusedAt source c e) ↔ Reading.start.readAll source = .error e := by
  constructor
  · rintro ⟨c, front, back, r, rfl, hfront, hread⟩
    simp only [readAll_append, hfront, readAll, hread]
  · intro h
    obtain ⟨front, c, back, r, hsource, hfront, hread⟩ := readAll_eq_error h
    exact ⟨c, front, back, r, hsource, hfront, hread⟩

theorem parse_append_of_error {source : List Char} {e : SyntaxError}
    (h : Reading.start.readAll source = .error e) (more : List Char) :
    parse (source ++ more) = .error e := by
  simp only [parse, readAll_append, h]

theorem parse_completion {source : List Char} (h : Reading.start.readAll source = .ok r) :
    ∃ pattern, parse (source ++ completion r) = .ok pattern := by
  obtain ⟨last, pattern, hlast, hfinish⟩ := finish_completion r
  refine ⟨pattern, ?_⟩
  simp only [parse, readAll_append, h, hlast, hfinish]

private theorem parse_eq_error_iff {source : List Char} {e : SyntaxError} :
    parse source = .error e ↔ (∃ c, RefusedAt source c e) ∨ RefusedAtEnd source e := by
  rw [refusedAt_iff, parse, RefusedAtEnd]
  cases Reading.start.readAll source <;> simp

/-! ## The errors -/

theorem isAbout_openBracket {bracket : Bracket} {e : SyntaxError}
    (h : r.openBracket bracket = .error e) : e.IsAbout bracket.opening := by
  unfold openBracket at h
  split at h
  · cases h
    exact ⟨bracket, rfl⟩
  · contradiction

theorem isAbout_closeBracket (bracket : Bracket) {e : SyntaxError}
    (h : r.closeBracket bracket.closing bracket = .error e) : e.IsAbout bracket.closing := by
  unfold closeBracket at h
  split at h
  · cases h
    exact rfl
  · split at h
    · cases h
      exact rfl
    · split at h
      · contradiction
      · rename_i hother
        cases h
        exact ⟨bracket, Ne.symm hother, rfl⟩

theorem isAbout_startGroup {c : Char} {e : SyntaxError} (h : r.startGroup c = .error e) :
    e.IsAbout c := by
  unfold startGroup at h
  split at h
  · exact isAbout_openBracket h
  · exact isAbout_openBracket h
  · exact isAbout_closeBracket .round h
  · exact isAbout_closeBracket .square h
  · cases h
    exact rfl
  · contradiction
  · contradiction

private theorem isAbout_read {c : Char} {e : SyntaxError} (h : r.read c = .error e) :
    e.IsAbout c := by
  unfold Reading.read at h
  split at h
  · exact isAbout_startGroup h
  · split at h
    · contradiction
    · split at h
      · cases h
        exact rfl
      · contradiction
  · split at h
    · contradiction
    · split at h
      · exact isAbout_startGroup h
      · contradiction
  · split at h
    · contradiction
    · rename_i hquote
      split at h
      · cases h
        exact not_not.mp hquote
      · contradiction
  · split at h
    · contradiction
    · exact isAbout_startGroup h

theorem isAboutEnd_whole {e : SyntaxError} (h : r.whole = .error e) : e.IsAboutEnd := by
  unfold whole at h
  split at h
  · contradiction
  · cases h
    exact trivial

private theorem isAboutEnd_finish {e : SyntaxError} (h : r.finish = .error e) : e.IsAboutEnd := by
  unfold finish at h
  split at h
  · split at h
    · cases h
      exact trivial
    · exact isAboutEnd_whole h
  · cases h
    exact trivial
  · exact isAboutEnd_whole h
  · split at h
    · cases h
      exact trivial
    · exact isAboutEnd_whole h
  · exact isAboutEnd_whole h

/--
A text either has a continuation that makes it a pattern, or fails with one and
the same error whatever follows.  The second is the case exactly when one of its
characters is refused; a text that fails only because it ends can be completed.
-/
theorem parse_failure_settled (source : List Char) :
    ((∃ more pattern, parse (source ++ more) = .ok pattern) ∨
      ∃ e, parse source = .error e ∧ ∀ more, parse (source ++ more) = .error e) ∧
    ∀ e,
      (parse source = .error e ↔ (∃ c, RefusedAt source c e) ∨ RefusedAtEnd source e) ∧
      ((∃ c, RefusedAt source c e) ↔ ∀ more, parse (source ++ more) = .error e) ∧
      (RefusedAtEnd source e → ∃ more pattern, parse (source ++ more) = .ok pattern) ∧
      (∀ c, RefusedAt source c e → e.IsAbout c) ∧
      (RefusedAtEnd source e → e.IsAboutEnd) := by
  refine ⟨?_, fun e => ⟨parse_eq_error_iff, ?_, ?_, ?_, ?_⟩⟩
  · cases h : Reading.start.readAll source with
    | ok r => exact .inl ⟨_, parse_completion h⟩
    | error e =>
        have hmore := parse_append_of_error h
        have hsource := hmore []
        rw [List.append_nil] at hsource
        exact .inr ⟨e, hsource, hmore⟩
  · rw [refusedAt_iff]
    refine ⟨parse_append_of_error, fun hmore => ?_⟩
    cases h : Reading.start.readAll source with
    | ok r =>
        obtain ⟨pattern, hpattern⟩ := parse_completion h
        rw [hmore] at hpattern
        contradiction
    | error found =>
        have hfound := parse_append_of_error h []
        rw [hmore] at hfound
        cases hfound
        rfl
  · rintro ⟨r, h, -⟩
    exact ⟨_, parse_completion h⟩
  · rintro c ⟨front, back, r, -, -, hread⟩
    exact isAbout_read hread
  · rintro ⟨r, -, hfinish⟩
    exact isAboutEnd_finish hfinish

/-- A quote that nothing follows yet, and a round bracket with a square one to close it. -/
theorem parse_unfinished :
    RefusedAtEnd ['(', '[', 'a', '/', '"'] .emptyQuotes ∧
      (∃ more pattern, parse (['(', '[', 'a', '/', '"'] ++ more) = .ok pattern) ∧
      RefusedAt ['(', 'a', ']', 'b'] ']' (.unclosed .round) ∧
      ∀ more, parse (['(', 'a', ']', 'b'] ++ more) = .error (.unclosed .round) := by
  have hend : RefusedAtEnd ['(', '[', 'a', '/', '"'] .emptyQuotes := ⟨_, rfl, rfl⟩
  have hwrong : RefusedAt ['(', 'a', ']', 'b'] ']' (.unclosed .round) :=
    ⟨['(', 'a'], ['b'], _, rfl, rfl, rfl⟩
  have hrepair := ((parse_failure_settled ['(', '[', 'a', '/', '"']).2 .emptyQuotes).2.2.1 hend
  have hnone := ((parse_failure_settled ['(', 'a', ']', 'b']).2 (.unclosed .round)).2.1.mp
    ⟨']', hwrong⟩
  exact ⟨hend, hrepair, hwrong, hnone⟩

end Pattern

end Wordmill
