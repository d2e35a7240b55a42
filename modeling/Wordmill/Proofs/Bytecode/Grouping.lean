import Wordmill.Proofs.Grammar.Outcome
import Wordmill.Proofs.Pattern.Regrouping

/-!
# Groups leave no trace in the code

A pattern and what it is regrouped to have the same instructions and the same
faults at every offset, so they compile to the same bytes or fail alike.
-/

namespace Wordmill

open Instruction Layout

namespace Pattern

/-! ## Nothing becomes empty -/

theorem forall_nodesEach_iff {patterns : List Pattern} :
    (∀ node ∈ nodesEach patterns, node.isEmpty = false) ↔
      ∀ pattern ∈ patterns, pattern.Filled := by
  induction patterns with
  | nil => simp [nodesEach]
  | cons pattern patterns ih =>
      rw [nodesEach, List.forall_mem_append, ih, List.forall_mem_cons]
      rfl

theorem filled_sequence_iff {parts : List Pattern} :
    (sequence parts).Filled ↔ parts ≠ [] ∧ ∀ part ∈ parts, part.Filled := by
  rw [Filled, nodes, List.forall_mem_cons, forall_nodesEach_iff]
  simp [isEmpty]

theorem filled_choice_iff {alternatives : List Pattern} :
    (choice alternatives).Filled ↔
      2 ≤ alternatives.length ∧ ∀ alternative ∈ alternatives, alternative.Filled := by
  rw [Filled, nodes, List.forall_mem_cons, forall_nodesEach_iff, isEmpty,
    decide_eq_false_iff_not, Nat.not_lt]

theorem filled_text_iff {chars : List Char} : (text chars).Filled ↔ chars ≠ [] := by
  simp [Filled, nodes, isEmpty]

theorem filled_quoted_iff {chars : List Char} : (quoted chars).Filled ↔ chars ≠ [] := by
  simp [Filled, nodes, isEmpty]

theorem filled_optional_iff {body : Pattern} : (optional body).Filled ↔ body.Filled := by
  simp [Filled, nodes, isEmpty]

private theorem Regroups.filled {old new : Pattern} (h : Regroups old new) (hfilled : old.Filled) :
    new.Filled := by
  induction h with
  | splice front parts back =>
      simp only [filled_sequence_iff, List.forall_mem_append, List.forall_mem_cons] at hfilled ⊢
      obtain ⟨-, hfront, ⟨hsome, hparts⟩, hback⟩ := hfilled
      exact ⟨by simp [hsome], hfront, hparts, hback⟩
  | single part => exact (filled_sequence_iff.mp hfilled).2 part List.mem_cons_self
  | joinText front back first second =>
      simp only [filled_sequence_iff, List.forall_mem_append, List.forall_mem_cons,
        filled_text_iff] at hfilled ⊢
      obtain ⟨-, hfront, hfirst, -, hback⟩ := hfilled
      exact ⟨by simp, hfront, by simp [hfirst], hback⟩
  | joinQuoted front back first second =>
      simp only [filled_sequence_iff, List.forall_mem_append, List.forall_mem_cons,
        filled_quoted_iff] at hfilled ⊢
      obtain ⟨-, hfront, hfirst, -, hback⟩ := hfilled
      exact ⟨by simp, hfront, by simp [hfirst], hback⟩
  | part front back _ ih =>
      simp only [filled_sequence_iff, List.forall_mem_append, List.forall_mem_cons] at hfilled ⊢
      obtain ⟨-, hfront, hpart, hback⟩ := hfilled
      exact ⟨by simp, hfront, ih hpart, hback⟩
  | alternative front back _ ih =>
      simp only [filled_choice_iff, List.forall_mem_append, List.forall_mem_cons] at hfilled ⊢
      obtain ⟨hlength, hfront, halternative, hback⟩ := hfilled
      exact ⟨by simpa using hlength, hfront, ih halternative, hback⟩
  | body _ ih => exact filled_optional_iff.mpr (ih (filled_optional_iff.mp hfilled))

/-! ## The same code -/

variable (definitions : Dictionary Pattern)

/-- Wherever it is written, a pattern comes to the same instructions or the same fault. -/
def SameCode (first second : Pattern) : Prop :=
  ∀ offset, first.instructions definitions offset = second.instructions definitions offset ∧
    first.fault definitions offset = second.fault definitions offset

/-- The same for the parts of a sequence. -/
def SameCodeEach (first second : List Pattern) : Prop :=
  ∀ offset, instructionsEach definitions first offset = instructionsEach definitions second offset ∧
    faultEach definitions first offset = faultEach definitions second offset

variable {definitions}

theorem SameCode.codeSize_eq {first second : Pattern} (h : SameCode definitions first second) :
    first.codeSize definitions = second.codeSize definitions := by
  rw [← span_instructions definitions first 0, (h 0).1, span_instructions]

private theorem SameCode.mentions_eq {first second : Pattern}
    (h : SameCode definitions first second) :
    first.mentions definitions = second.mentions definitions := by
  rw [mentions, mentions, ← calls_instructions definitions first 0, (h 0).1, calls_instructions]

theorem SameCodeEach.refl (parts : List Pattern) : SameCodeEach definitions parts parts :=
  fun _ => ⟨rfl, rfl⟩

theorem SameCodeEach.cons {first second : Pattern} {firsts seconds : List Pattern}
    (hpart : SameCode definitions first second) (hparts : SameCodeEach definitions firsts seconds) :
    SameCodeEach definitions (first :: firsts) (second :: seconds) := by
  intro offset
  simp only [instructionsEach, faultEach, hpart offset, hpart.codeSize_eq, hparts _, and_self]

theorem SameCodeEach.append_left (front : List Pattern) {first second : List Pattern}
    (h : SameCodeEach definitions first second) :
    SameCodeEach definitions (front ++ first) (front ++ second) := by
  induction front with
  | nil => exact h
  | cons part front ih => exact ih.cons fun _ => ⟨rfl, rfl⟩

theorem fault_sequence {parts : List Pattern} (h : parts ≠ []) (offset : Nat) :
    (sequence parts).fault definitions offset = faultEach definitions parts offset := by
  rw [fault]
  exact if_neg (by simpa [isEmpty] using h)

theorem SameCodeEach.sequence {first second : List Pattern}
    (h : SameCodeEach definitions first second) (hfirst : first ≠ []) (hsecond : second ≠ []) :
    SameCode definitions (sequence first) (sequence second) := by
  intro offset
  rw [fault_sequence hfirst, fault_sequence hsecond]
  exact h offset

/-! ## Steps of regrouping -/

variable (definitions)

private theorem instructionsEach_append (front back : List Pattern) (offset : Nat) :
    instructionsEach definitions (front ++ back) offset =
      instructionsEach definitions front offset ++
        instructionsEach definitions back (offset + codeSizes definitions front) := by
  induction front generalizing offset with
  | nil => rfl
  | cons part front ih => simp [instructionsEach, codeSizes, ih, Nat.add_assoc]

private theorem faultEach_append (front back : List Pattern) (offset : Nat) :
    faultEach definitions (front ++ back) offset =
      (faultEach definitions front offset).or
        (faultEach definitions back (offset + codeSizes definitions front)) := by
  induction front generalizing offset with
  | nil => simp [faultEach, codeSizes]
  | cons part front ih => simp [faultEach, codeSizes, ih, Nat.add_assoc, Option.or_assoc]

/-- A sequence in a sequence is its parts. -/
theorem sameCodeEach_splice {parts : List Pattern} (hsome : parts ≠ []) (back : List Pattern) :
    SameCodeEach definitions (.sequence parts :: back) (parts ++ back) := by
  intro offset
  rw [instructionsEach_append, faultEach_append, instructionsEach, faultEach,
    fault_sequence hsome]
  exact ⟨rfl, rfl⟩

theorem sameCode_single (part : Pattern) : SameCode definitions (.sequence [part]) part := by
  intro offset
  rw [fault_sequence (List.cons_ne_nil part [])]
  simp [instructions, instructionsEach, faultEach]

private theorem sameCodeEach_joinText {first : List Char} (hfirst : first ≠ []) {second : List Char}
    (hsecond : second ≠ []) (back : List Pattern) :
    SameCodeEach definitions (.text first :: .text second :: back)
      (.text (first ++ second) :: back) := by
  intro offset
  simp [instructionsEach, faultEach, instructions, fault, isEmpty, codeSize, hfirst, hsecond,
    Nat.add_assoc]

private theorem sameCodeEach_joinQuoted {first : List Char} (hfirst : first ≠ [])
    {second : List Char} (hsecond : second ≠ []) (back : List Pattern) :
    SameCodeEach definitions (.quoted first :: .quoted second :: back)
      (.quoted (first ++ second) :: back) := by
  intro offset
  simp [instructionsEach, faultEach, instructions, fault, isEmpty, codeSize, hfirst, hsecond,
    Nat.add_assoc]

private theorem sameCode_body {old new : Pattern} (h : SameCode definitions old new) :
    SameCode definitions (.optional old) (.optional new) := by
  intro offset
  rw [fault, fault, instructions, instructions, h.codeSize_eq, (h _).1]
  exact ⟨rfl, (h _).2⟩

variable {definitions}

private theorem codeSizes_congr {old new : List Pattern}
    (h : List.Forall₂ (SameCode definitions) old new) :
    codeSizes definitions old = codeSizes definitions new := by
  induction h with
  | nil => rfl
  | cons hpattern _ ih => rw [codeSizes, codeSizes, hpattern.codeSize_eq, ih]

private theorem alternativeStarts_congr {old new : List Pattern}
    (h : List.Forall₂ (SameCode definitions) old new) (offset : Nat) :
    alternativeStarts definitions old offset = alternativeStarts definitions new offset := by
  induction h generalizing offset with
  | nil => rfl
  | cons hpattern _ ih => rw [alternativeStarts, alternativeStarts, hpattern.codeSize_eq, ih]

private theorem instructionsBetween_congr {old new : List Pattern}
    (h : List.Forall₂ (SameCode definitions) old new) (target offset : Nat) :
    instructionsBetween definitions target old offset =
      instructionsBetween definitions target new offset := by
  induction h generalizing offset with
  | nil => rfl
  | cons hpattern hothers ih =>
      cases hothers with
      | nil => exact (hpattern offset).1
      | cons hnext hothers =>
          rw [instructionsBetween, instructionsBetween, (hpattern offset).1,
            hpattern.codeSize_eq, ih]

private theorem faultBetween_congr {old new : List Pattern}
    (h : List.Forall₂ (SameCode definitions) old new) (offset : Nat) :
    faultBetween definitions old offset = faultBetween definitions new offset := by
  induction h generalizing offset with
  | nil => rfl
  | cons hpattern _ ih =>
      rw [faultBetween, faultBetween, (hpattern offset).2, hpattern.codeSize_eq, ih]

private theorem sameCode_choice {old new : List Pattern}
    (h : List.Forall₂ (SameCode definitions) old new) :
    SameCode definitions (.choice old) (.choice new) := by
  have hsize : codeSize definitions (.choice old) = codeSize definitions (.choice new) := by
    rw [codeSize, codeSize, codeSizes_congr h, h.length_eq]
  have hempty : (choice old).isEmpty = (choice new).isEmpty := by
    rw [isEmpty, isEmpty, h.length_eq]
  intro offset
  constructor
  · rw [instructions, instructions, hsize, alternativeStarts_congr h, instructionsBetween_congr h]
  · rw [fault, fault, hempty, hsize]
    simp only [faultBetween_congr h]

/-- One alternative is exchanged for another. -/
theorem forall₂_alternative (front back : List Pattern) {old new : Pattern}
    (h : SameCode definitions old new) :
    List.Forall₂ (SameCode definitions) (front ++ old :: back) (front ++ new :: back) := by
  have hrefl (pattern : Pattern) : SameCode definitions pattern pattern := fun _ => ⟨rfl, rfl⟩
  induction front with
  | nil => exact .cons h (List.forall₂_same.mpr fun pattern _ => hrefl pattern)
  | cons pattern front ih => exact .cons (hrefl pattern) ih

/-- One step of regrouping leaves the code alone. -/
theorem Regroups.sameCode {old new : Pattern} (h : Regroups old new) (hfilled : old.Filled) :
    SameCode definitions old new := by
  induction h with
  | splice front parts back =>
      obtain ⟨hsome, hparts⟩ := filled_sequence_iff.mp hfilled
      have hinner := (filled_sequence_iff.mp (hparts (.sequence parts) (by simp))).1
      exact ((sameCodeEach_splice definitions hinner back).append_left front).sequence hsome
        (by simp [hinner])
  | single part => exact sameCode_single definitions part
  | joinText front back first second =>
      obtain ⟨hsome, hparts⟩ := filled_sequence_iff.mp hfilled
      have hfirst := filled_text_iff.mp (hparts (.text first) (by simp))
      have hsecond := filled_text_iff.mp (hparts (.text second) (by simp))
      exact ((sameCodeEach_joinText definitions hfirst hsecond back).append_left front).sequence
        hsome (by simp)
  | joinQuoted front back first second =>
      obtain ⟨hsome, hparts⟩ := filled_sequence_iff.mp hfilled
      have hfirst := filled_quoted_iff.mp (hparts (.quoted first) (by simp))
      have hsecond := filled_quoted_iff.mp (hparts (.quoted second) (by simp))
      exact ((sameCodeEach_joinQuoted definitions hfirst hsecond back).append_left front).sequence
        hsome (by simp)
  | part front back _ ih =>
      obtain ⟨hsome, hparts⟩ := filled_sequence_iff.mp hfilled
      have hpart := ih (hparts _ (by simp))
      exact ((SameCodeEach.cons hpart (.refl back)).append_left front).sequence hsome (by simp)
  | alternative front back _ ih =>
      have halternative := ih ((filled_choice_iff.mp hfilled).2 _ (by simp))
      exact sameCode_choice (forall₂_alternative front back halternative)
  | body _ ih => exact sameCode_body definitions (ih (filled_optional_iff.mp hfilled))

end Pattern

/-! ## Compiling -/

variable {definitions : Dictionary Pattern} {pattern : Pattern}

theorem compile_of_sameCode {first second : Pattern}
    (h : Pattern.SameCode definitions first second) :
    compile first definitions = compile second definitions := by
  have hsubroutines : subroutines definitions first = subroutines definitions second := by
    rw [subroutines, subroutines, h.mentions_eq]
  have hprogram : program definitions first = program definitions second := by
    rw [program, program, (h 0).1, h.codeSize_eq, hsubroutines]
  have hstarts : startOf definitions first = startOf definitions second := by
    funext name
    rw [startOf, startOf, h.codeSize_eq, hsubroutines]
  rw [compile_eq, compile_eq, assemble, assemble, compileFault, compileFault, (h 0).2,
    h.codeSize_eq, hsubroutines, hprogram, hstarts]

/-- Any number of steps of regrouping leaves the code alone. -/
theorem compile_of_regroupsTo {regrouped : Pattern} (hfilled : pattern.Filled)
    (h : pattern.RegroupsTo regrouped) :
    compile regrouped definitions = compile pattern definitions := by
  have hboth : regrouped.Filled ∧ compile regrouped definitions = compile pattern definitions := by
    induction h with
    | refl => exact ⟨hfilled, rfl⟩
    | tail _ hstep ih =>
        obtain ⟨hmiddle, hcode⟩ := ih
        exact ⟨hstep.filled hmiddle,
          (compile_of_sameCode (hstep.sameCode hmiddle)).symm.trans hcode⟩
  exact hboth.2

/-! ## Brackets around a source -/

namespace Pattern

private theorem count_inBrackets (group : Pattern) (content : List Char) :
    (inBrackets group content).count '"' = content.count '"' := by
  cases group <;> simp [inBrackets]

private theorem even_quotes_renderEach {groups : List Pattern}
    (h : ∀ group ∈ groups, group.render.count '"' % 2 = 0) :
    (renderEach groups).count '"' % 2 = 0 := by
  induction groups with
  | nil => rfl
  | cons group groups ih =>
      obtain ⟨hgroup, hgroups⟩ := List.forall_mem_cons.mp h
      have hrest := ih hgroups
      rw [renderEach, List.count_append, count_inBrackets]
      omega

private theorem even_quotes_renderChoice {alternatives : List Pattern}
    (h : ∀ alternative ∈ alternatives, alternative.render.count '"' % 2 = 0) :
    (renderChoice alternatives).count '"' % 2 = 0 := by
  induction alternatives with
  | nil => rfl
  | cons alternative others ih =>
      obtain ⟨halternative, hothers⟩ := List.forall_mem_cons.mp h
      cases others with
      | nil => exact halternative
      | cons next others =>
          have hrest := ih hothers
          rw [renderChoice, List.count_append, List.count_cons_of_ne (by decide)]
          omega

theorem even_quotes_of_isAtom {atom : Pattern} (h : IsAtom atom) :
    atom.render.count '"' % 2 = 0 := by
  cases h with
  | @text chars _ hchars =>
      have hnone : '"' ∉ chars := fun hmem => by
        have := hchars '"' hmem
        contradiction
      rw [render, List.count_eq_zero.mpr hnone]
  | quoted _ hnone => simp [render, List.count_eq_zero.mpr hnone]

mutual

/-- Every quote that is opened is closed. -/
theorem even_quotes_of_normal {pattern : Pattern} (h : Normal pattern) :
    pattern.render.count '"' % 2 = 0 := by
  match h with
  | .sequence _ hgroups _ =>
      exact even_quotes_renderEach fun group hgroup => even_quotes_of_isGroup (hgroups group hgroup)

private theorem even_quotes_of_isGroup {group : Pattern} (h : IsGroup group) :
    group.render.count '"' % 2 = 0 := by
  match h with
  | .atom hatom => exact even_quotes_of_isAtom hatom
  | .choice _ hatoms =>
      exact even_quotes_renderChoice fun atom hatom => even_quotes_of_isAtom (hatoms atom hatom)
  | .optional hbody =>
      have hinner := even_quotes_of_normal hbody
      simpa [render] using hinner
  | .nested hnormal => exact even_quotes_of_normal hnormal

end

/-- Brackets around a source whose quotes are closed make a sequence of one. -/
theorem parse_enclosed {source : List Char} {pattern : Pattern}
    (hparse : parse source = .ok pattern) (hquotes : source.count '"' % 2 = 0)
    (hnesting : pattern.nesting < maxNesting) :
    parse ('[' :: (source ++ [']'])) = .ok (.sequence [pattern]) := by
  obtain ⟨hnormal, -, hrender⟩ := sound_parse hparse
  have heven := even_quotes_of_normal hnormal
  have hsource : pattern.render = source := by
    refine hrender.resolve_right fun hmissing => ?_
    rw [hmissing, List.count_append, List.count_singleton_self] at heven
    omega
  have hwhole : Normal (.sequence [pattern]) :=
    .sequence (List.cons_ne_nil _ _) (by simpa using .nested hnormal) (.singleton _)
  cases hnormal with
  | sequence =>
      have hparsed := parse_render hwhole (by
        rw [nesting, nestingEach, nestingEach, squareBrackets]
        omega)
      rw [← hparsed, ← hsource]
      simp only [render, renderEach, inBrackets, List.append_nil]

end Pattern

/--
Regrouping is not seen by the compiler.  However often a pattern without empty
nodes is regrouped, it compiles to the same bytes or fails with the same error,
and so does `flatten`, which is reached in steps and leaves none to be taken.
Brackets around a whole source are not seen either, if its quotes are closed and
the nesting allows for them.
-/
theorem compile_flatten (definitions : Dictionary Pattern) {pattern : Pattern}
    (hfilled : ∀ node ∈ pattern.nodes, node.isEmpty = false) :
    compile pattern.flatten definitions = compile pattern definitions ∧
      pattern.RegroupsTo pattern.flatten ∧
      (∀ next, ¬ pattern.flatten.Regroups next) ∧
      (∀ regrouped, pattern.RegroupsTo regrouped →
        compile regrouped definitions = compile pattern definitions) ∧
      ∀ (source : List Char) (root : Pattern) (scope : Dictionary Grammar),
        Pattern.parse source = .ok root → source.count '"' % 2 = 0 → root.nesting ≤ 255 →
          (Grammar.mk ('[' :: (source ++ [']'])) scope).compile =
            (Grammar.mk source scope).compile := by
  have hreaches := pattern.regroupsTo_flatten
  refine ⟨compile_of_regroupsTo hfilled hreaches, hreaches,
    fun _ => pattern.flat_flatten.not_regroups, fun _ => compile_of_regroupsTo hfilled, ?_⟩
  intro source root scope hparse hquotes hnesting
  have henclosed := Pattern.parse_enclosed hparse hquotes (Nat.lt_succ_of_le hnesting)
  have hsame (definitions : Dictionary Pattern) :=
    compile_of_sameCode (Pattern.sameCode_single definitions root)
  unfold Grammar.compile
  simp only [Grammar.source, Grammar.definitions, Grammar.patterns, henclosed, hparse, hsame]

/-- Groups in a sequence, in an alternative and in an optional part. -/
def grouped : Pattern :=
  .sequence [.sequence [.text ['a']], .text ['b'],
    .choice [.sequence [.text ['B'], .sequence [.text ['c']]], .quoted ['d']],
    .optional (.sequence [.sequence [.quoted ['e']], .quoted ['f']])]

theorem compile_grouped :
    (∀ node ∈ grouped.nodes, node.isEmpty = false) ∧
      compile (.sequence [.text ['a', 'b'], .choice [.text ['B', 'c'], .quoted ['d']],
          .optional (.quoted ['e', 'f'])]) [('B', .text ['b'])] =
        compile grouped [('B', .text ['b'])] ∧
      Pattern.parse ['(', 'a', '/', 'B', ')', '"', 'c', '"'] =
        .ok (.sequence [.optional (.sequence [.choice [.text ['a'], .text ['B']]]),
          .quoted ['c']]) ∧
      (Grammar.mk ['[', '(', 'a', '/', 'B', ')', '"', 'c', '"', ']']
          [('B', .mk ['b'] [])]).compile =
        (Grammar.mk ['(', 'a', '/', 'B', ')', '"', 'c', '"'] [('B', .mk ['b'] [])]).compile := by
  have hfilled : ∀ node ∈ grouped.nodes, node.isEmpty = false := by
    simp [grouped, Pattern.nodes, Pattern.nodesEach, Pattern.isEmpty]
  have hparse : Pattern.parse ['(', 'a', '/', 'B', ')', '"', 'c', '"'] =
      .ok (.sequence [.optional (.sequence [.choice [.text ['a'], .text ['B']]]),
        .quoted ['c']]) := by rfl
  obtain ⟨hcode, -, -, -, hbrackets⟩ := compile_flatten [('B', .text ['b'])] hfilled
  exact ⟨hfilled, hcode, hparse, hbrackets _ _ _ hparse rfl (by decide)⟩

end Wordmill
