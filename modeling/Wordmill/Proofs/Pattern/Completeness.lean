import Wordmill.Proofs.Pattern.Rendering

/-!
# What is written is read back

The text of a pattern, read behind other groups, adds that pattern to them,
unless more brackets are open at one time than the reader allows.
-/

namespace Wordmill.Pattern

open Reading

theorem ne_slash {c : Char} (h : isDelimiter c = false) : c ≠ '/' := by
  rintro rfl
  contradiction

private theorem startGroup_of_text (r : Reading) {c : Char} (h : isDelimiter c = false) :
    r.startGroup c = .ok { r with place := .inText [] [c] } := by
  unfold startGroup
  split
  all_goals first | contradiction | rfl

/-! ## Behind a group -/

namespace Reading

/--
The reader has the groups behind it, newest first.  `inText` tells whether text
would still belong to the newest of them.
-/
inductive Behind : Reading → List Pattern → List Opening → Bool → Prop
  | group {groups : List Pattern} {openings : List Opening} :
      Behind ⟨groups, openings, .betweenGroups⟩ groups openings false
  | text {groups : List Pattern} {openings : List Opening} {done : List Pattern}
      {chars : List Char} :
      Behind ⟨groups, openings, .inText done chars⟩ (groupOf done (.text chars.reverse) :: groups)
        openings true
  | quotes {groups : List Pattern} {openings : List Opening} {done : List Pattern}
      {chars : List Char} :
      Behind ⟨groups, openings, .afterQuotes done chars⟩
        (groupOf done (.quoted chars.reverse) :: groups) openings false

end Reading

variable {r : Reading} {groups done : List Pattern} {openings : List Opening} {inText : Bool}

/-- What does not continue the newest group starts another one. -/
theorem read_of_behind (h : r.Behind groups openings inText) {c : Char} (hslash : c ≠ '/')
    (htext : inText = true → isDelimiter c = true) :
    r.read c = Reading.startGroup ⟨groups, openings, .betweenGroups⟩ c := by
  cases h with
  | group => rfl
  | text =>
      simp only [Reading.read, if_neg hslash, htext rfl, if_true]
      rfl
  | quotes =>
      simp only [Reading.read, if_neg hslash]
      rfl

/-! ## Atoms -/

theorem readAll_text {chars : List Char} (h : ∀ c ∈ chars, isDelimiter c = false)
    (before : List Char) :
    Reading.readAll ⟨groups, openings, .inText done before⟩ chars =
      .ok ⟨groups, openings, .inText done (chars.reverse ++ before)⟩ := by
  induction chars generalizing before with
  | nil => rfl
  | cons c chars ih =>
      obtain ⟨hc, hchars⟩ := List.forall_mem_cons.mp h
      have hread : Reading.read ⟨groups, openings, .inText done before⟩ c =
          .ok ⟨groups, openings, .inText done (c :: before)⟩ := by
        simp [Reading.read, ne_slash hc, hc]
      rw [readAll, hread, List.reverse_cons, List.append_assoc]
      exact ih hchars (c :: before)

private theorem readAll_quoted {chars : List Char} (h : '"' ∉ chars) (before : List Char) :
    Reading.readAll ⟨groups, openings, .inQuotes done before⟩ chars =
      .ok ⟨groups, openings, .inQuotes done (chars.reverse ++ before)⟩ := by
  induction chars generalizing before with
  | nil => rfl
  | cons c chars ih =>
      obtain ⟨hc, hchars⟩ := not_or.mp (List.mem_cons.not.mp h)
      have hread : Reading.read ⟨groups, openings, .inQuotes done before⟩ c =
          .ok ⟨groups, openings, .inQuotes done (c :: before)⟩ := by
        simp [Reading.read, Ne.symm hc]
      rw [readAll, hread, List.reverse_cons, List.append_assoc]
      exact ih hchars (c :: before)

theorem readAll_closedQuotes {chars : List Char} (hsome : chars ≠ []) (h : '"' ∉ chars) :
    Reading.readAll ⟨groups, openings, .inQuotes done []⟩ (chars ++ ['"']) =
      .ok ⟨groups, openings, .afterQuotes done chars.reverse⟩ := by
  rw [readAll_append, readAll_quoted h]
  simp [readAll, Reading.read, hsome]

/-- Where the reader stands behind an alternative. -/
def afterAtom (done : List Pattern) : Pattern → Place
  | .text chars => .inText done chars.reverse
  | .quoted chars => .afterQuotes done chars.reverse
  | _ => .betweenGroups

theorem behind_afterAtom {atom : Pattern} (h : IsAtom atom) :
    Reading.Behind ⟨groups, openings, afterAtom done atom⟩ (groupOf done atom :: groups) openings
      atom.isText := by
  cases h with
  | @text chars =>
      have hbehind : Reading.Behind ⟨groups, openings, .inText done chars.reverse⟩
          (groupOf done (.text chars.reverse.reverse) :: groups) openings true := .text
      rw [List.reverse_reverse] at hbehind
      exact hbehind
  | @quoted chars =>
      have hbehind : Reading.Behind ⟨groups, openings, .afterQuotes done chars.reverse⟩
          (groupOf done (.quoted chars.reverse.reverse) :: groups) openings false := .quotes
      rw [List.reverse_reverse] at hbehind
      exact hbehind

theorem readAll_firstAtom {atom : Pattern} (hatom : IsAtom atom)
    (h : r.Behind groups openings inText) (htext : inText = true → atom.isText = false) :
    r.readAll atom.render = .ok ⟨groups, openings, afterAtom [] atom⟩ := by
  cases hatom with
  | @text chars hsome hchars =>
      cases chars with
      | nil => contradiction
      | cons c chars =>
          obtain ⟨hc, hchars⟩ := List.forall_mem_cons.mp hchars
          have hbefore : inText = true → isDelimiter c = true :=
            fun hinText => absurd (htext hinText) (by simp [isText])
          rw [render, readAll, read_of_behind h (ne_slash hc) hbefore, startGroup_of_text _ hc]
          simp only [afterAtom, List.reverse_cons]
          exact readAll_text hchars [c]
  | @quoted chars hsome hchars =>
      rw [render, readAll, read_of_behind h (by decide) (fun _ => rfl)]
      exact readAll_closedQuotes hsome hchars

theorem readAll_nextAtom {atom : Pattern} (hatom : IsAtom atom) :
    Reading.readAll ⟨groups, openings, .afterSlash done⟩ atom.render =
      .ok ⟨groups, openings, afterAtom done atom⟩ := by
  cases hatom with
  | @text chars hsome hchars =>
      cases chars with
      | nil => contradiction
      | cons c chars =>
          obtain ⟨hc, hchars⟩ := List.forall_mem_cons.mp hchars
          have hquote : c ≠ '"' := by
            rintro rfl
            contradiction
          have hread : Reading.read ⟨groups, openings, .afterSlash done⟩ c =
              .ok ⟨groups, openings, .inText done [c]⟩ := by
            simp [Reading.read, hquote, hc]
          rw [render, readAll, hread]
          simp only [afterAtom, List.reverse_cons]
          exact readAll_text hchars [c]
  | @quoted chars hsome hchars =>
      rw [render, readAll]
      exact readAll_closedQuotes hsome hchars

theorem read_slash {atom : Pattern} (hatom : IsAtom atom) :
    Reading.read ⟨groups, openings, afterAtom done atom⟩ '/' =
      .ok ⟨groups, openings, .afterSlash (atom :: done)⟩ := by
  cases hatom <;> simp [afterAtom, Reading.read]

private theorem readAll_alternatives (groups : List Pattern) (openings : List Opening)
    (done : List Pattern) {alternatives : List Pattern} (hsome : alternatives ≠ [])
    (hatoms : ∀ alternative ∈ alternatives, IsAtom alternative) :
    ∃ front last, alternatives = front ++ [last] ∧ IsAtom last ∧
      Reading.readAll ⟨groups, openings, .afterSlash done⟩ (renderChoice alternatives) =
        .ok ⟨groups, openings, afterAtom (front.reverse ++ done) last⟩ := by
  induction alternatives generalizing done with
  | nil => contradiction
  | cons alternative others ih =>
      obtain ⟨hatom, hothers⟩ := List.forall_mem_cons.mp hatoms
      cases others with
      | nil => exact ⟨[], alternative, rfl, hatom, readAll_nextAtom hatom⟩
      | cons next others =>
          obtain ⟨front, last, hfront, hlast, hread⟩ :=
            ih (alternative :: done) (List.cons_ne_nil _ _) hothers
          refine ⟨alternative :: front, last, by rw [hfront]; rfl, hlast, ?_⟩
          rw [renderChoice, readAll_append, readAll_nextAtom hatom]
          simp only [readAll, read_slash hatom]
          rw [hread, List.reverse_cons, List.append_assoc]
          rfl

/-! ## Groups -/

/--
Read behind other groups, the text of a group adds the group to them or, with
too many brackets, is refused.
-/
def ReadsBack (group : Pattern) : Prop :=
  ∀ (r : Reading) (groups : List Pattern) (openings : List Opening) (inText : Bool),
    r.Behind groups openings inText → openings.length ≤ maxNesting →
    (inText = true → group.startsWithText = false) →
      (openings.length + group.groupNesting ≤ maxNesting →
        ∃ next, r.readAll group.renderGroup = .ok next ∧
          next.Behind (group :: groups) openings group.endsInText) ∧
      (maxNesting < openings.length + group.groupNesting →
        r.readAll group.renderGroup = .error .nestingTooDeep)

private theorem readsBack_of_isAtom {atom : Pattern} (h : IsAtom atom) : ReadsBack atom := by
  intro r groups openings inText hbehind hopen htext
  have hnesting : atom.groupNesting = 0 := by
    cases h <;> rfl
  have hrender : atom.renderGroup = atom.render := by
    cases h <;> rfl
  have hends : atom.endsInText = atom.isText := by
    cases h <;> rfl
  have hstarts : atom.startsWithText = atom.isText := by
    cases h <;> rfl
  rw [hnesting, hrender, hends]
  rw [hstarts] at htext
  constructor
  · intro _
    exact ⟨_, readAll_firstAtom h hbehind htext, behind_afterAtom h⟩
  · intro hdeep
    omega

private theorem readsBack_choice {alternatives : List Pattern} (hlength : 2 ≤ alternatives.length)
    (hatoms : ∀ alternative ∈ alternatives, IsAtom alternative) :
    ReadsBack (.choice alternatives) := by
  intro r groups openings inText hbehind hopen htext
  match alternatives with
  | [] | [_] => simp at hlength
  | first :: next :: others =>
      obtain ⟨hfirst, hothers⟩ := List.forall_mem_cons.mp hatoms
      obtain ⟨front, last, hfront, hlast, hread⟩ :=
        readAll_alternatives groups openings [first] (List.cons_ne_nil next others) hothers
      have hrender : r.readAll (renderGroup (.choice (first :: next :: others))) =
          .ok ⟨groups, openings, afterAtom (front.reverse ++ [first]) last⟩ := by
        simp only [renderGroup, inBrackets, render, renderChoice]
        rw [readAll_append, readAll_firstAtom hfirst hbehind htext]
        simp only [readAll, read_slash hfirst]
        exact hread
      have hgroup : groupOf (front.reverse ++ [first]) last =
          .choice (first :: next :: others) := by
        simp [groupOf, hfront]
      have hends : endsInText (.choice (first :: next :: others)) = last.isText := by
        rw [endsInText, hfront, List.getLastD_concat]
      constructor
      · intro _
        refine ⟨_, hrender, ?_⟩
        rw [hends, ← hgroup]
        exact behind_afterAtom hlast
      · intro hdeep
        simp only [groupNesting, nesting, squareBrackets] at hdeep
        omega

theorem readAll_renderEach {parts : List Pattern} (hparts : ∀ part ∈ parts, ReadsBack part)
    (hchain : parts.IsChain Apart) (hbehind : r.Behind groups openings inText)
    (hopen : openings.length ≤ maxNesting)
    (hfirst : inText = true → ∀ part ∈ parts.head?, part.startsWithText = false) :
    (openings.length + nestingEach parts ≤ maxNesting →
      ∃ next inLast, r.readAll (renderEach parts) = .ok next ∧
        next.Behind (parts.reverse ++ groups) openings inLast) ∧
    (maxNesting < openings.length + nestingEach parts →
      r.readAll (renderEach parts) = .error .nestingTooDeep) := by
  induction parts generalizing r groups inText with
  | nil =>
      constructor
      · intro _
        exact ⟨r, inText, rfl, hbehind⟩
      · intro hdeep
        simp only [nestingEach] at hdeep
        omega
  | cons part parts ih =>
      obtain ⟨hpart, hothers⟩ := List.forall_mem_cons.mp hparts
      have hafter : part.endsInText = true →
          ∀ other ∈ parts.head?, other.startsWithText = false := by
        intro hends other hother
        exact (List.isChain_cons.mp hchain).1 other hother hends
      obtain ⟨hfits, hdeep⟩ := hpart r groups openings inText hbehind hopen
        fun hinText => hfirst hinText part rfl
      simp only [renderEach, nestingEach, readAll_append]
      rw [show inBrackets part part.render = part.renderGroup from rfl,
        show part.nesting + part.squareBrackets = part.groupNesting from rfl]
      -- the first part that has too many brackets is refused, and nothing behind it is read
      by_cases hroom : openings.length + part.groupNesting ≤ maxNesting
      · obtain ⟨next, hnext, hbehind⟩ := hfits hroom
        obtain ⟨hrest, hrestDeep⟩ := ih hothers hchain.tail hbehind hafter
        simp only [hnext]
        constructor
        · intro hall
          obtain ⟨final, inLast, hfinal, hlast⟩ := hrest (by omega)
          refine ⟨final, inLast, hfinal, ?_⟩
          rw [List.reverse_cons, List.append_assoc]
          exact hlast
        · intro hsome
          exact hrestDeep (by omega)
      · constructor
        · intro hall
          omega
        · intro _
          simp only [hdeep (by omega)]

theorem readAll_bracketed (bracket : Bracket) {parts : List Pattern} (hsome : parts ≠ [])
    (hparts : ∀ part ∈ parts, ReadsBack part) (hchain : parts.IsChain Apart)
    (hbehind : r.Behind groups openings inText) (hopen : openings.length ≤ maxNesting) :
    (openings.length + (nestingEach parts + 1) ≤ maxNesting →
      r.readAll (bracket.opening :: (renderEach parts ++ [bracket.closing])) =
        .ok ⟨enclosed bracket parts.reverse :: groups, openings, .betweenGroups⟩) ∧
    (maxNesting < openings.length + (nestingEach parts + 1) →
      r.readAll (bracket.opening :: (renderEach parts ++ [bracket.closing])) =
        .error .nestingTooDeep) := by
  have hread : r.read bracket.opening =
      Reading.openBracket ⟨groups, openings, .betweenGroups⟩ bracket := by
    rw [read_of_behind hbehind (by cases bracket <;> decide)
      (by cases bracket <;> exact fun _ => rfl)]
    cases bracket <;> rfl
  by_cases hfull : openings.length = maxNesting
  · constructor
    · intro hall
      omega
    · intro _
      rw [readAll, hread, openBracket, if_pos hfull]
  · have hinside : Reading.Behind ⟨[], ⟨bracket, groups⟩ :: openings, .betweenGroups⟩ []
        (⟨bracket, groups⟩ :: openings) false := .group
    obtain ⟨hfits, hdeep⟩ := readAll_renderEach hparts hchain hinside
      (by rw [List.length_cons]; omega) (by simp)
    rw [readAll, hread, openBracket, if_neg hfull]
    simp only [readAll_append]
    rw [List.length_cons] at hfits hdeep
    constructor
    · intro hall
      obtain ⟨next, inLast, hnext, hlast⟩ := hfits (by omega)
      rw [List.append_nil] at hlast
      have hclose : next.read bracket.closing =
          Reading.closeBracket ⟨parts.reverse, ⟨bracket, groups⟩ :: openings, .betweenGroups⟩
            bracket.closing bracket := by
        rw [read_of_behind hlast (by cases bracket <;> decide)
          (by cases bracket <;> exact fun _ => rfl)]
        cases bracket <;> rfl
      simp [hnext, readAll, hclose, closeBracket, hsome]
    · intro hall
      simp only [hdeep (by omega)]

private theorem readsBack_optional {parts : List Pattern} (hsome : parts ≠ [])
    (hparts : ∀ part ∈ parts, ReadsBack part) (hchain : parts.IsChain Apart) :
    ReadsBack (.optional (.sequence parts)) := by
  intro r groups openings inText hbehind hopen _
  obtain ⟨hfits, hdeep⟩ := readAll_bracketed .round hsome hparts hchain hbehind hopen
  refine ⟨fun hall => ⟨_, hfits hall, ?_⟩, hdeep⟩
  simp only [enclosed, List.reverse_reverse]
  exact .group

private theorem readsBack_sequence {parts : List Pattern} (hsome : parts ≠ [])
    (hparts : ∀ part ∈ parts, ReadsBack part) (hchain : parts.IsChain Apart) :
    ReadsBack (.sequence parts) := by
  intro r groups openings inText hbehind hopen _
  obtain ⟨hfits, hdeep⟩ := readAll_bracketed .square hsome hparts hchain hbehind hopen
  refine ⟨fun hall => ⟨_, hfits hall, ?_⟩, hdeep⟩
  simp only [enclosed, List.reverse_reverse]
  exact .group

mutual

theorem readsBack_of_normal {parts : List Pattern} (h : Normal (.sequence parts)) :
    ∀ part ∈ parts, ReadsBack part := by
  cases h with
  | sequence _ hgroups _ =>
      intro part hpart
      exact readsBack_of_isGroup (hgroups part hpart)

private theorem readsBack_of_isGroup {group : Pattern} (h : IsGroup group) : ReadsBack group := by
  cases h with
  | atom hatom => exact readsBack_of_isAtom hatom
  | choice hlength hatoms => exact readsBack_choice hlength hatoms
  | optional hbody =>
      cases hbody with
      | sequence hsome hgroups hchain =>
          have hparts := readsBack_of_normal (.sequence hsome hgroups hchain)
          exact readsBack_optional hsome hparts hchain
  | nested hnormal =>
      cases hnormal with
      | sequence hsome hgroups hchain =>
          have hparts := readsBack_of_normal (.sequence hsome hgroups hchain)
          exact readsBack_sequence hsome hparts hchain

end

/-! ## Whole patterns -/

theorem finish_of_behind (h : r.Behind groups [] inText) (hsome : groups ≠ []) :
    r.finish = .ok (.sequence groups.reverse) := by
  cases h with
  | group => simp [finish, whole, hsome]
  | text => simp [finish, endGroup, whole]
  | quotes => simp [finish, endGroup, whole]

theorem readAll_start {parts : List Pattern} (h : Normal (.sequence parts)) :
    (nestingEach parts ≤ maxNesting →
      ∃ next inLast, Reading.start.readAll (renderEach parts) = .ok next ∧
        next.Behind parts.reverse [] inLast) ∧
    (maxNesting < nestingEach parts →
      Reading.start.readAll (renderEach parts) = .error .nestingTooDeep) := by
  have hparts := readsBack_of_normal h
  cases h with
  | sequence hsome hgroups hchain =>
      have hstart : Reading.start.Behind [] [] false := .group
      have hread := readAll_renderEach hparts hchain hstart (Nat.zero_le _) (by simp)
      rw [List.append_nil, List.length_nil, Nat.zero_add] at hread
      exact hread

theorem parse_render {pattern : Pattern} (h : Normal pattern)
    (hnesting : pattern.nesting ≤ maxNesting) : parse pattern.render = .ok pattern := by
  cases h with
  | @sequence parts hsome hgroups hchain =>
      obtain ⟨next, inLast, hnext, hlast⟩ :=
        (readAll_start (.sequence hsome hgroups hchain)).1 hnesting
      have hfinish := finish_of_behind hlast (by simpa using hsome)
      rw [List.reverse_reverse] at hfinish
      simp only [parse, render, hnext, hfinish]

theorem parse_render_of_deep {pattern : Pattern} (h : Normal pattern)
    (hnesting : maxNesting < pattern.nesting) :
    parse pattern.render = .error .nestingTooDeep := by
  cases h with
  | @sequence parts hsome hgroups hchain =>
      have hdeep := (readAll_start (.sequence hsome hgroups hchain)).2 hnesting
      simp only [parse, render, hdeep]

/-- The end of the text closes quotes just as well. -/
theorem finish_of_read_quote {next : Reading} {pattern : Pattern} (hread : r.read '"' = .ok next)
    (hfinish : next.finish = .ok pattern) : r.finish = .ok pattern := by
  obtain ⟨groups, openings, place⟩ := r
  cases place with
  | betweenGroups =>
      cases hread
      contradiction
  | afterSlash done =>
      cases hread
      contradiction
  | inText done chars =>
      cases hread
      contradiction
  | inQuotes done chars =>
      cases chars with
      | nil => contradiction
      | cons c chars =>
          cases hread
          exact hfinish
  | afterQuotes done chars =>
      cases hread
      contradiction

theorem parse_of_missing_quote {source : List Char} {pattern : Pattern}
    (h : parse (source ++ ['"']) = .ok pattern) : parse source = .ok pattern := by
  simp only [parse, readAll_append, readAll] at h ⊢
  cases hsource : Reading.start.readAll source with
  | error e => simp [hsource] at h
  | ok r =>
      simp only [hsource] at h ⊢
      cases hread : r.read '"' with
      | error e => simp [hread] at h
      | ok next =>
          simp only [hread] at h
          exact finish_of_read_quote hread h

end Wordmill.Pattern
