import Wordmill.Proofs.Pattern.Completeness

/-!
# What is read had been written

At each moment the reader holds the text behind it: its open brackets, its
groups and the choice being read can be written down again.
-/

namespace Wordmill.Pattern

open Reading

/-! ## The text behind the reader -/

/-- Alternatives with a slash behind each of them, the newest first. -/
def renderSlashed : List Pattern → List Char
  | [] => []
  | alternative :: done => renderSlashed done ++ (render alternative ++ ['/'])

def renderPlace : Place → List Char
  | .betweenGroups => []
  | .afterSlash done => renderSlashed done
  | .inText done chars => renderSlashed done ++ chars.reverse
  | .inQuotes done chars => renderSlashed done ++ '"' :: chars.reverse
  | .afterQuotes done chars => renderSlashed done ++ '"' :: (chars.reverse ++ ['"'])

def renderOpenings : List Opening → List Char
  | [] => []
  | opening :: openings =>
      renderOpenings openings ++ (renderEach opening.before.reverse ++ [opening.bracket.opening])

def written (r : Reading) : List Char :=
  renderOpenings r.openings ++ (renderEach r.groups.reverse ++ renderPlace r.place)

private theorem renderChoice_concat {alternatives : List Pattern} (hsome : alternatives ≠ [])
    (last : Pattern) :
    renderChoice (alternatives ++ [last]) = renderChoice alternatives ++ '/' :: render last := by
  induction alternatives with
  | nil => contradiction
  | cons alternative others ih =>
      cases others with
      | nil => rfl
      | cons next others =>
          have hothers := ih (List.cons_ne_nil next others)
          rw [List.cons_append] at hothers
          simp only [List.cons_append, renderChoice, hothers, List.append_assoc]

private theorem renderChoice_reverse (done : List Pattern) (last : Pattern) :
    renderChoice (last :: done).reverse = renderSlashed done ++ render last := by
  induction done generalizing last with
  | nil => rfl
  | cons alternative done ih =>
      rw [List.reverse_cons, renderChoice_concat (by simp), ih alternative]
      simp [renderSlashed]

private theorem renderGroup_of_isAtom {atom : Pattern} (h : IsAtom atom) :
    renderGroup atom = render atom := by
  cases h <;> rfl

theorem renderGroup_groupOf (done : List Pattern) {last : Pattern} (h : IsAtom last) :
    renderGroup (groupOf done last) = renderSlashed done ++ render last := by
  cases done with
  | nil => exact renderGroup_of_isAtom h
  | cons alternative done => exact renderChoice_reverse (alternative :: done) last

/-! ## The invariant -/

/-- Groups next to each other, the newest first, within `depth` open brackets. -/
structure SoundGroups (depth : Nat) (groups : List Pattern) : Prop where
  isGroup : ∀ group ∈ groups, IsGroup group
  fits : ∀ group ∈ groups, depth + group.groupNesting ≤ maxNesting
  chain : groups.IsChain fun newer older => Apart older newer

def SoundOpenings : List Opening → Prop
  | [] => True
  | opening :: openings =>
      openings.length < maxNesting ∧ SoundGroups openings.length opening.before ∧
        SoundOpenings openings

/-- Whether a choice starts with text, given whether its last alternative is text. -/
def choiceStartsWithText (done : List Pattern) (last : Bool) : Bool :=
  match done.getLast? with
  | none => last
  | some first => first.isText

/-- The choice being read, behind `groups`; `last` tells whether its last alternative is text. -/
structure SoundChoice (groups done : List Pattern) (last : Bool) : Prop where
  atoms : ∀ alternative ∈ done, IsAtom alternative
  apart : ∀ group ∈ groups.head?, group.endsInText = true →
    choiceStartsWithText done last = false

def SoundPlace (groups : List Pattern) : Place → Prop
  | .betweenGroups => ∀ group ∈ groups.head?, group.endsInText = false
  | .afterSlash done => done ≠ [] ∧ ∀ last, SoundChoice groups done last
  | .inText done chars =>
      SoundChoice groups done true ∧ IsAtom (.text chars.reverse)
  | .inQuotes done chars => SoundChoice groups done false ∧ '"' ∉ chars
  | .afterQuotes done chars =>
      SoundChoice groups done false ∧ IsAtom (.quoted chars.reverse)

structure Sound (r : Reading) : Prop where
  openings : SoundOpenings r.openings
  groups : SoundGroups r.openings.length r.groups
  place : SoundPlace r.groups r.place

private theorem sound_start : Sound .start where
  openings := trivial
  groups := ⟨by simp [start], by simp [start], .nil⟩
  place := by simp [SoundPlace, start]

private theorem choiceStartsWithText_cons (alternative : Pattern) (done : List Pattern)
    (last : Bool) :
    choiceStartsWithText (alternative :: done) last =
      choiceStartsWithText done alternative.isText := by
  simp only [choiceStartsWithText, List.getLast?_cons]
  cases done.getLast? <;> rfl

private theorem startsWithText_groupOf (done : List Pattern) {last : Pattern} (h : IsAtom last) :
    (groupOf done last).startsWithText = choiceStartsWithText done last.isText := by
  rcases List.eq_nil_or_concat done with rfl | ⟨front, first, rfl⟩
  · cases h <;> rfl
  · simp [groupOf, startsWithText, choiceStartsWithText]

private theorem endsInText_groupOf (done : List Pattern) {last : Pattern} (h : IsAtom last) :
    (groupOf done last).endsInText = last.isText := by
  rcases List.eq_nil_or_concat done with rfl | ⟨front, first, rfl⟩
  · cases h <;> rfl
  · simp [groupOf, endsInText]

private theorem isGroup_groupOf {done : List Pattern} {last : Pattern}
    (hdone : ∀ alternative ∈ done, IsAtom alternative) (h : IsAtom last) :
    IsGroup (groupOf done last) := by
  cases done with
  | nil => exact .atom h
  | cons alternative done =>
      refine .choice (by simp) ?_
      intro other hother
      rcases List.mem_cons.mp (List.mem_reverse.mp hother) with rfl | hother
      · exact h
      · exact hdone other hother

private theorem groupNesting_groupOf (done : List Pattern) {last : Pattern} (h : IsAtom last) :
    (groupOf done last).groupNesting = 0 := by
  cases done with
  | nil => cases h <;> rfl
  | cons alternative done => rfl

theorem SoundGroups.cons {depth : Nat} {groups : List Pattern} {group : Pattern}
    (h : SoundGroups depth groups) (hgroup : IsGroup group)
    (hfits : depth + group.groupNesting ≤ maxNesting)
    (hapart : ∀ older ∈ groups.head?, Apart older group) : SoundGroups depth (group :: groups) where
  isGroup := List.forall_mem_cons.mpr ⟨hgroup, h.isGroup⟩
  fits := List.forall_mem_cons.mpr ⟨hfits, h.fits⟩
  chain := List.isChain_cons.mpr ⟨hapart, h.chain⟩

/-- A choice that has been read to its end is one more group. -/
theorem SoundGroups.endChoice {depth : Nat} {groups done : List Pattern} {last : Pattern}
    (h : SoundGroups depth groups) (hdepth : depth ≤ maxNesting)
    (hchoice : SoundChoice groups done last.isText) (hlast : IsAtom last) :
    SoundGroups depth (groupOf done last :: groups) := by
  apply h.cons (isGroup_groupOf hchoice.atoms hlast)
  · rw [groupNesting_groupOf done hlast]
    exact hdepth
  · intro older holder hends
    rw [startsWithText_groupOf done hlast]
    exact hchoice.apart older holder hends

theorem SoundOpenings.length_le {openings : List Opening} (h : SoundOpenings openings) :
    openings.length ≤ maxNesting := by
  cases openings with
  | nil => exact Nat.zero_le _
  | cons opening openings => exact h.1

/-- What stands within brackets is a pattern of its own. -/
theorem SoundGroups.normal {depth : Nat} {groups : List Pattern} (h : SoundGroups depth groups)
    (hsome : groups ≠ []) : Normal (.sequence groups.reverse) := by
  refine .sequence (by simpa using hsome) ?_ (List.isChain_reverse.mpr h.chain)
  intro group hgroup
  exact h.isGroup group (List.mem_reverse.mp hgroup)

theorem SoundGroups.nestingEach_le {depth : Nat} {groups : List Pattern}
    (h : SoundGroups depth groups) (hdepth : depth ≤ maxNesting) :
    depth + nestingEach groups.reverse ≤ maxNesting := by
  have hle : nestingEach groups.reverse ≤ maxNesting - depth := by
    apply nestingEach_le_iff.mpr
    intro group hgroup
    have := h.fits group (List.mem_reverse.mp hgroup)
    omega
  omega

/-! ## One character -/

section

variable {groups : List Pattern} {openings : List Opening} {next : Reading}

theorem sound_openBracket {bracket : Bracket} (hopenings : SoundOpenings openings)
    (hgroups : SoundGroups openings.length groups)
    (h : Reading.openBracket ⟨groups, openings, .betweenGroups⟩ bracket = .ok next) :
    Sound next ∧ written next =
      renderOpenings openings ++ (renderEach groups.reverse ++ [bracket.opening]) := by
  unfold openBracket at h
  split at h
  · contradiction
  · rename_i hfull
    cases h
    have hlt : openings.length < maxNesting := Nat.lt_of_le_of_ne hopenings.length_le hfull
    refine ⟨⟨⟨hlt, hgroups, hopenings⟩, ⟨by simp, by simp, .nil⟩, by simp [SoundPlace]⟩, ?_⟩
    simp [written, renderOpenings, renderPlace, renderEach]

private theorem isGroup_enclosed (bracket : Bracket) {groups : List Pattern}
    (h : Normal (.sequence groups.reverse)) : IsGroup (enclosed bracket groups) := by
  cases bracket with
  | round => exact .optional h
  | square => exact .nested h

private theorem groupNesting_enclosed (bracket : Bracket) (groups : List Pattern) :
    (enclosed bracket groups).groupNesting = nestingEach groups.reverse + 1 := by
  cases bracket <;> rfl

private theorem renderGroup_enclosed (bracket : Bracket) (groups : List Pattern) :
    renderGroup (enclosed bracket groups) =
      bracket.opening :: (renderEach groups.reverse ++ [bracket.closing]) := by
  cases bracket <;> rfl

theorem sound_closeBracket {bracket : Bracket} {c : Char} (hopenings : SoundOpenings openings)
    (hgroups : SoundGroups openings.length groups)
    (h : Reading.closeBracket ⟨groups, openings, .betweenGroups⟩ c bracket = .ok next) :
    Sound next ∧ written next =
      renderOpenings openings ++ (renderEach groups.reverse ++ [bracket.closing]) := by
  unfold closeBracket at h
  split at h
  · contradiction
  · rename_i hsome
    cases openings with
    | nil => contradiction
    | cons opening openings =>
      simp only at h
      split at h
      · rename_i hbracket
        cases h
        cases hbracket
        obtain ⟨hlt, hbefore, hothers⟩ := hopenings
        have hnormal := hgroups.normal (by simpa using hsome)
        have hnesting := hgroups.nestingEach_le hlt
        rw [List.length_cons] at hnesting
        refine ⟨⟨hothers, hbefore.cons (isGroup_enclosed opening.bracket hnormal) ?_ ?_, ?_⟩, ?_⟩
        · rw [groupNesting_enclosed]
          omega
        · intro older _ _
          cases opening.bracket <;> rfl
        · intro group hgroup
          cases hgroup
          cases opening.bracket <;> rfl
        · simp only [written, renderOpenings, renderPlace, List.reverse_cons, renderEach_concat,
            renderGroup_enclosed, List.append_assoc, List.append_nil, List.cons_append,
            List.nil_append]
      · contradiction

theorem sound_startGroup {c : Char} (hopenings : SoundOpenings openings)
    (hgroups : SoundGroups openings.length groups)
    (htext : isDelimiter c = false → ∀ group ∈ groups.head?, group.endsInText = false)
    (h : Reading.startGroup ⟨groups, openings, .betweenGroups⟩ c = .ok next) :
    Sound next ∧ written next = renderOpenings openings ++ (renderEach groups.reverse ++ [c]) := by
  unfold startGroup at h
  split at h
  · exact sound_openBracket hopenings hgroups h
  · exact sound_openBracket hopenings hgroups h
  · exact sound_closeBracket hopenings hgroups h
  · exact sound_closeBracket hopenings hgroups h
  · contradiction
  · cases h
    refine ⟨⟨hopenings, hgroups, ⟨⟨by simp, ?_⟩, List.not_mem_nil⟩⟩, rfl⟩
    intro group _ _
    rfl
  · cases h
    rename_i hround hsquare hroundEnd hsquareEnd hslash hquote
    have hc : isDelimiter c = false := by
      have hnone : ¬c = '[' ∧ ¬c = ']' ∧ ¬c = '(' ∧ ¬c = ')' ∧ ¬c = '"' ∧ ¬c = '/' :=
        ⟨hsquare, hsquareEnd, hround, hroundEnd, hquote, hslash⟩
      simpa [isDelimiter] using hnone
    refine ⟨⟨hopenings, hgroups, ⟨⟨by simp, ?_⟩, .text (by simp) (by simpa using hc)⟩⟩, rfl⟩
    intro group hgroup hends
    rw [htext hc group hgroup] at hends
    contradiction

end

theorem SoundChoice.slash {groups done : List Pattern} {atom : Pattern}
    (h : SoundChoice groups done atom.isText) (hatom : IsAtom atom) (last : Bool) :
    SoundChoice groups (atom :: done) last where
  atoms := List.forall_mem_cons.mpr ⟨hatom, h.atoms⟩
  apart := by
    intro group hgroup hends
    rw [choiceStartsWithText_cons]
    exact h.apart group hgroup hends

private theorem sound_afterSlash {groups done : List Pattern} {openings : List Opening}
    {next : Reading} {c : Char} (h : Sound ⟨groups, openings, .afterSlash done⟩)
    (hread : Reading.read ⟨groups, openings, .afterSlash done⟩ c = .ok next) :
    Sound next ∧ written next = written ⟨groups, openings, .afterSlash done⟩ ++ [c] := by
  obtain ⟨hopenings, hgroups, -, hchoice⟩ := h
  simp only [Reading.read] at hread
  split at hread
  · rename_i hquote
    cases hread
    refine ⟨⟨hopenings, hgroups, hchoice false, List.not_mem_nil⟩, ?_⟩
    simp [written, renderPlace, hquote]
  · split at hread
    · contradiction
    · rename_i hc
      cases hread
      refine ⟨⟨hopenings, hgroups, hchoice true, .text (by simp) (by simpa using hc)⟩, ?_⟩
      simp [written, renderPlace]

private theorem sound_inText {groups done : List Pattern} {openings : List Opening}
    {chars : List Char}
    {next : Reading} {c : Char} (h : Sound ⟨groups, openings, .inText done chars⟩)
    (hread : Reading.read ⟨groups, openings, .inText done chars⟩ c = .ok next) :
    Sound next ∧ written next = written ⟨groups, openings, .inText done chars⟩ ++ [c] := by
  obtain ⟨hopenings, hgroups, hchoice, hatom⟩ := h
  simp only [Reading.read] at hread
  split at hread
  · rename_i hslash
    cases hread
    refine ⟨⟨hopenings, hgroups, List.cons_ne_nil _ _, hchoice.slash hatom⟩, ?_⟩
    simp [written, renderPlace, renderSlashed, render, hslash]
  · split at hread
    · rename_i hc
      have hended := hgroups.endChoice hopenings.length_le hchoice hatom
      obtain ⟨hsound, hwritten⟩ := sound_startGroup hopenings hended
        (fun htext => absurd hc (by simp [htext])) hread
      refine ⟨hsound, ?_⟩
      rw [hwritten, List.reverse_cons, renderEach_concat, renderGroup_groupOf done hatom]
      simp [written, renderPlace, render]
    · rename_i hc
      cases hread
      cases hatom with
      | text hsome hchars =>
          refine ⟨⟨hopenings, hgroups, hchoice, .text (by simp) ?_⟩, ?_⟩
          · intro other hother
            rcases List.mem_cons.mp (List.mem_reverse.mp hother) with rfl | hother
            · simpa using hc
            · exact hchars other (List.mem_reverse.mpr hother)
          · simp [written, renderPlace]

private theorem sound_inQuotes {groups done : List Pattern} {openings : List Opening}
    {chars : List Char} {next : Reading} {c : Char}
    (h : Sound ⟨groups, openings, .inQuotes done chars⟩)
    (hread : Reading.read ⟨groups, openings, .inQuotes done chars⟩ c = .ok next) :
    Sound next ∧ written next = written ⟨groups, openings, .inQuotes done chars⟩ ++ [c] := by
  obtain ⟨hopenings, hgroups, hchoice, hchars⟩ := h
  simp only [Reading.read] at hread
  split at hread
  · rename_i hc
    cases hread
    refine ⟨⟨hopenings, hgroups, hchoice, ?_⟩, ?_⟩
    · exact List.mem_cons.not.mpr (not_or.mpr ⟨Ne.symm hc, hchars⟩)
    · simp [written, renderPlace]
  · rename_i hc
    split at hread
    · contradiction
    · rename_i hsome
      cases hread
      have hquote : c = '"' := not_not.mp hc
      refine ⟨⟨hopenings, hgroups, hchoice, .quoted (by simpa using hsome) (by simpa using hchars)⟩,
        ?_⟩
      simp [written, renderPlace, hquote]

private theorem sound_afterQuotes {groups done : List Pattern} {openings : List Opening}
    {chars : List Char} {next : Reading} {c : Char}
    (h : Sound ⟨groups, openings, .afterQuotes done chars⟩)
    (hread : Reading.read ⟨groups, openings, .afterQuotes done chars⟩ c = .ok next) :
    Sound next ∧ written next = written ⟨groups, openings, .afterQuotes done chars⟩ ++ [c] := by
  obtain ⟨hopenings, hgroups, hchoice, hatom⟩ := h
  simp only [Reading.read] at hread
  split at hread
  · rename_i hslash
    cases hread
    refine ⟨⟨hopenings, hgroups, List.cons_ne_nil _ _, hchoice.slash hatom⟩, ?_⟩
    simp [written, renderPlace, renderSlashed, render, hslash]
  · have hended := hgroups.endChoice hopenings.length_le hchoice hatom
    have hends : ∀ group ∈ (groupOf done (.quoted chars.reverse) :: groups).head?,
        group.endsInText = false := by
      intro group hgroup
      cases hgroup
      exact endsInText_groupOf done hatom
    obtain ⟨hsound, hwritten⟩ := sound_startGroup hopenings hended (fun _ => hends) hread
    refine ⟨hsound, ?_⟩
    rw [hwritten, List.reverse_cons, renderEach_concat, renderGroup_groupOf done hatom]
    simp [written, renderPlace, render]

/-- Each character that is read stays in the text behind the reader. -/
theorem sound_read {r next : Reading} {c : Char} (h : Sound r) (hread : r.read c = .ok next) :
    Sound next ∧ written next = written r ++ [c] := by
  obtain ⟨groups, openings, place⟩ := r
  cases place with
  | betweenGroups =>
      obtain ⟨hopenings, hgroups, hplace⟩ := h
      obtain ⟨hsound, hwritten⟩ := sound_startGroup hopenings hgroups (fun _ => hplace) hread
      refine ⟨hsound, ?_⟩
      rw [hwritten]
      simp [written, renderPlace]
  | afterSlash done => exact sound_afterSlash h hread
  | inText done chars => exact sound_inText h hread
  | inQuotes done chars => exact sound_inQuotes h hread
  | afterQuotes done chars => exact sound_afterQuotes h hread

private theorem sound_readAll {r next : Reading} {chars : List Char} (h : Sound r)
    (hread : r.readAll chars = .ok next) : Sound next ∧ written next = written r ++ chars := by
  induction chars generalizing r with
  | nil =>
      cases hread
      rw [List.append_nil]
      exact ⟨h, rfl⟩
  | cons c chars ih =>
      simp only [readAll] at hread
      cases hstep : r.read c with
      | error e => simp [hstep] at hread
      | ok middle =>
          simp only [hstep] at hread
          obtain ⟨hmiddle, hfirst⟩ := sound_read h hstep
          obtain ⟨hnext, hwritten⟩ := ih hmiddle hread
          rw [hwritten, hfirst, List.append_assoc]
          exact ⟨hnext, rfl⟩

/-! ## The end of the text -/

theorem sound_whole {groups : List Pattern} {openings : List Opening} {pattern : Pattern}
    (hgroups : SoundGroups openings.length groups) (hsome : groups ≠ [])
    (h : Reading.whole ⟨groups, openings, .betweenGroups⟩ = .ok pattern) :
    Normal pattern ∧ pattern.nesting ≤ maxNesting ∧
      pattern.render = renderOpenings openings ++ renderEach groups.reverse := by
  cases openings with
  | cons opening openings => contradiction
  | nil =>
      cases h
      have hnesting := hgroups.nestingEach_le (Nat.zero_le _)
      rw [List.length_nil, Nat.zero_add] at hnesting
      exact ⟨hgroups.normal hsome, hnesting, rfl⟩

theorem sound_lastChoice {groups done : List Pattern} {openings : List Opening}
    {last pattern : Pattern} (hopenings : SoundOpenings openings)
    (hgroups : SoundGroups openings.length groups)
    (hchoice : SoundChoice groups done last.isText) (hlast : IsAtom last)
    (h : Reading.whole ⟨groupOf done last :: groups, openings, .betweenGroups⟩ = .ok pattern) :
    Normal pattern ∧ pattern.nesting ≤ maxNesting ∧
      pattern.render = renderOpenings openings ++
        (renderEach groups.reverse ++ (renderSlashed done ++ last.render)) := by
  have hended := hgroups.endChoice hopenings.length_le hchoice hlast
  obtain ⟨hnormal, hnesting, hrender⟩ := sound_whole hended (List.cons_ne_nil _ _) h
  rw [List.reverse_cons, renderEach_concat, renderGroup_groupOf done hlast] at hrender
  exact ⟨hnormal, hnesting, hrender⟩

private theorem sound_finish {r : Reading} {pattern : Pattern} (h : Sound r)
    (hfinish : r.finish = .ok pattern) :
    Normal pattern ∧ pattern.nesting ≤ maxNesting ∧
      (pattern.render = written r ∨ pattern.render = written r ++ ['"']) := by
  obtain ⟨groups, openings, place⟩ := r
  obtain ⟨hopenings, hgroups, hplace⟩ := h
  cases place with
  | betweenGroups =>
      simp only [finish] at hfinish
      split at hfinish
      · contradiction
      · rename_i hsome
        obtain ⟨hnormal, hnesting, hrender⟩ :=
          sound_whole hgroups (by simpa using hsome) hfinish
        refine ⟨hnormal, hnesting, .inl ?_⟩
        simp [hrender, written, renderPlace]
  | afterSlash done => contradiction
  | inText done chars =>
      obtain ⟨hchoice, hatom⟩ := hplace
      obtain ⟨hnormal, hnesting, hrender⟩ :=
        sound_lastChoice hopenings hgroups hchoice hatom hfinish
      exact ⟨hnormal, hnesting, .inl hrender⟩
  | inQuotes done chars =>
      obtain ⟨hchoice, hquote⟩ := hplace
      simp only [finish] at hfinish
      split at hfinish
      · contradiction
      · rename_i hsome
        have hatom : IsAtom (.quoted chars.reverse) :=
          .quoted (by simpa using hsome) (by simpa using hquote)
        obtain ⟨hnormal, hnesting, hrender⟩ :=
          sound_lastChoice hopenings hgroups hchoice hatom hfinish
        refine ⟨hnormal, hnesting, .inr ?_⟩
        simp [hrender, written, renderPlace, render]
  | afterQuotes done chars =>
      obtain ⟨hchoice, hatom⟩ := hplace
      obtain ⟨hnormal, hnesting, hrender⟩ :=
        sound_lastChoice hopenings hgroups hchoice hatom hfinish
      exact ⟨hnormal, hnesting, .inl hrender⟩

theorem sound_parse {source : List Char} {pattern : Pattern} (h : parse source = .ok pattern) :
    Normal pattern ∧ pattern.nesting ≤ maxNesting ∧
      (pattern.render = source ∨ pattern.render = source ++ ['"']) := by
  unfold parse at h
  split at h
  · contradiction
  · rename_i r hread
    obtain ⟨hsound, hwritten⟩ := sound_readAll sound_start hread
    have hsource : written r = source := hwritten
    rw [← hsource]
    exact sound_finish hsound h

/--
A text is read as a pattern if and only if it is what is written for that
pattern, possibly without the quote at its end.  The only patterns that cannot be
read back are those with too many brackets open at one time.
-/
theorem parse_eq_ok_iff (pattern : Pattern) :
    (∀ source : List Char, parse source = .ok pattern ↔
      Normal pattern ∧ pattern.nesting ≤ maxNesting ∧
        (pattern.render = source ∨ pattern.render = source ++ ['"'])) ∧
    (Normal pattern → maxNesting < pattern.nesting →
      parse pattern.render = .error .nestingTooDeep ∧
        SyntaxError.nestingTooDeep.message = "nesting too deep") := by
  constructor
  · intro source
    constructor
    · exact sound_parse
    · rintro ⟨hnormal, hnesting, hrender | hrender⟩
      · rw [← hrender]
        exact parse_render hnormal hnesting
      · apply parse_of_missing_quote
        rw [← hrender]
        exact parse_render hnormal hnesting
  · intro hnormal hnesting
    exact ⟨parse_render_of_deep hnormal hnesting, rfl⟩

/-- Without the quote at the end. -/
example : parse "(a/\"b\")c\"d".toList =
    .ok (.sequence [.optional (.sequence [.choice [.text ['a'], .quoted ['b']]]), .text ['c'],
      .quoted ['d']]) := by
  rfl

/-- One letter within `n` pairs of square brackets. -/
def bracketed : Nat → Pattern
  | 0 => .sequence [.text ['a']]
  | n + 1 => .sequence [bracketed n]

theorem normal_bracketed (n : Nat) : Normal (bracketed n) := by
  induction n with
  | zero =>
      refine .sequence (List.cons_ne_nil _ _) ?_ (.singleton _)
      intro group hgroup
      cases List.mem_singleton.mp hgroup
      refine .atom (.text (List.cons_ne_nil _ _) ?_)
      intro c hc
      cases List.mem_singleton.mp hc
      rfl
  | succ n ih =>
      refine .sequence (List.cons_ne_nil _ _) ?_ (.singleton _)
      intro group hgroup
      cases List.mem_singleton.mp hgroup
      exact .nested ih

theorem nesting_bracketed (n : Nat) : (bracketed n).nesting = n := by
  induction n with
  | zero => rfl
  | succ n ih =>
      have hsquare : (bracketed n).squareBrackets = 1 := by
        cases n <;> rfl
      simp [bracketed, nesting, nestingEach, ih, hsquare]

/-- The last number of brackets that can be read back, and the first that cannot. -/
theorem parse_bracketed :
    parse (bracketed 256).render = .ok (bracketed 256) ∧
      parse (bracketed 257).render = .error .nestingTooDeep := by
  have hfits : (bracketed 256).nesting ≤ maxNesting := by
    rw [nesting_bracketed]
    exact Nat.le_refl 256
  have hdeep : maxNesting < (bracketed 257).nesting := by
    rw [nesting_bracketed]
    exact Nat.lt_succ_self 256
  constructor
  · exact ((parse_eq_ok_iff _).1 _).mpr ⟨normal_bracketed 256, hfits, .inl rfl⟩
  · exact ((parse_eq_ok_iff _).2 (normal_bracketed 257) hdeep).1

end Wordmill.Pattern
