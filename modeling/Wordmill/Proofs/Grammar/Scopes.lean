import Wordmill.Draw.Script
import Wordmill.Grammar.Load
import Wordmill.Proofs.Bytecode.Correctness
import Wordmill.Words

/-!
# Scopes

In a grammar each definition comes with the definitions that it sees, but its
code is made from one dictionary of all of them.  The two ways to look names up
agree as long as every name that can be met stands for the same pattern in both.
-/

namespace Wordmill

open Machine

variable {σ : Type} [Draw σ]

/-! ## Evaluation with scopes -/

namespace Grammar

/--
A character stands for the definition that the grammar itself holds.  A
definition that cannot be read ends the evaluation, as too many calls do.
-/
def mention (callsLeft : Nat) (grammar : Grammar) (c : Char) (evaluation : Evaluation σ) :
    Progress σ :=
  match grammar.definitions.find? c with
  | none => .ok (evaluation.write c)
  | some nested =>
      match callsLeft with
      | 0 => .error evaluation
      | callsLeft + 1 =>
          match Pattern.parse nested.source with
          | .error _ => .error evaluation
          | .ok body => body.evaluateWith (mention callsLeft nested) evaluation

def evaluate (grammar : Grammar) (root : Pattern) (source : σ) : Progress σ :=
  root.evaluateWith (mention maxCalls grammar) ⟨"", source⟩

/-- Where a chain of mentions leads if each name is looked up where it stands. -/
def follow (grammar : Grammar) (pattern : Pattern) : List Char → Option (Grammar × Pattern)
  | [] => some (grammar, pattern)
  | name :: chain =>
      if name ∈ pattern.unquoted then
        match grammar.definitions.find? name with
        | none => none
        | some nested =>
            match Pattern.parse nested.source with
            | .error _ => none
            | .ok body => follow nested body chain
      else none

end Grammar

/-- Where a chain of mentions leads if every name is looked up in one dictionary. -/
def Pattern.follow (definitions : Dictionary Pattern) (pattern : Pattern) :
    List Char → Option Pattern
  | [] => some pattern
  | name :: chain =>
      if name ∈ pattern.unquoted then
        match definitions.find? name with
        | none => none
        | some body => follow definitions body chain
      else none

namespace Grammar

/--
Every chain of at most `callsLeft` mentions leads to the same pattern with the
dictionary as with the scopes, and the names known to that pattern are the same.
-/
def Coherent (definitions : Dictionary Pattern) (callsLeft : Nat) (grammar : Grammar)
    (pattern : Pattern) : Prop :=
  ∀ chain : List Char, chain.length ≤ callsLeft →
    (grammar.follow pattern chain).map (·.2) = pattern.follow definitions chain ∧
      ∀ scope body, grammar.follow pattern chain = some (scope, body) →
        ∀ c ∈ body.unquoted, definitions.hasName c = scope.definitions.hasName c

/--
The dictionary has the same names as the scopes for all that `pattern` mentions
directly or through at most `callsLeft` definitions, and the same patterns under
them.
-/
def Agrees (definitions : Dictionary Pattern) (callsLeft : Nat) (grammar : Grammar)
    (pattern : Pattern) : Prop :=
  ∀ c ∈ pattern.unquoted,
    definitions.hasName c = grammar.definitions.hasName c ∧
      match callsLeft with
      | 0 => True
      | callsLeft + 1 =>
          ∀ body nested, definitions.find? c = some body →
            grammar.definitions.find? c = some nested →
              Pattern.parse nested.source = .ok body ∧
                Agrees definitions callsLeft nested body

end Grammar

namespace Pattern

section

variable {first second : Char → Evaluation σ → Progress σ}

omit [Draw σ] in
private theorem evaluateText_congr {chars : List Char} (h : ∀ c ∈ chars, first c = second c)
    (evaluation : Evaluation σ) :
    evaluateText first chars evaluation = evaluateText second chars evaluation := by
  induction chars generalizing evaluation with
  | nil => rfl
  | cons c chars ih =>
      simp only [evaluateText]
      rw [h c List.mem_cons_self]
      congr 1
      funext next
      exact ih (fun other hother => h other (List.mem_cons_of_mem _ hother)) next

mutual

/-- Only the characters of unquoted text matter. -/
theorem evaluateWith_congr (pattern : Pattern)
    (h : ∀ c ∈ pattern.unquoted, first c = second c) (evaluation : Evaluation σ) :
    pattern.evaluateWith first evaluation = pattern.evaluateWith second evaluation := by
  cases pattern with
  | sequence parts => exact evaluateEach_congr parts h evaluation
  | text chars => exact evaluateText_congr h evaluation
  | quoted chars => rfl
  | choice alternatives =>
      simp only [evaluateWith]
      exact evaluateNth_congr alternatives h _ _
  | optional body =>
      simp only [evaluateWith]
      rw [evaluateWith_congr body h]

theorem evaluateEach_congr (parts : List Pattern)
    (h : ∀ c ∈ unquotedEach parts, first c = second c) (evaluation : Evaluation σ) :
    evaluateEach first parts evaluation = evaluateEach second parts evaluation := by
  match parts with
  | [] => rfl
  | part :: parts =>
      simp only [evaluateEach]
      rw [evaluateWith_congr part fun c hc => h c (List.mem_append_left _ hc)]
      congr 1
      funext next
      exact evaluateEach_congr parts (fun c hc => h c (List.mem_append_right _ hc)) next

theorem evaluateNth_congr (alternatives : List Pattern)
    (h : ∀ c ∈ unquotedEach alternatives, first c = second c) (index : Nat)
    (evaluation : Evaluation σ) :
    evaluateNth first alternatives index evaluation =
      evaluateNth second alternatives index evaluation := by
  match alternatives, index with
  | [], _ => rfl
  | alternative :: _, 0 =>
      exact evaluateWith_congr alternative (fun c hc => h c (List.mem_append_left _ hc)) evaluation
  | _ :: others, index + 1 =>
      exact evaluateNth_congr others (fun c hc => h c (List.mem_append_right _ hc)) index evaluation

end

end

end Pattern

namespace Grammar

variable {definitions : Dictionary Pattern}

private theorem mention_eq_of_agrees {callsLeft : Nat} {grammar : Grammar} {pattern : Pattern}
    (h : Agrees definitions callsLeft grammar pattern) :
    ∀ c ∈ pattern.unquoted,
      Pattern.mention (σ := σ) definitions callsLeft c = mention callsLeft grammar c := by
  induction callsLeft generalizing grammar pattern with
  | zero =>
      intro c hc
      obtain ⟨hname, -⟩ := h c hc
      rw [← Dictionary.isSome_find?, ← Dictionary.isSome_find?] at hname
      funext evaluation
      unfold Pattern.mention mention
      cases hbody : definitions.find? c <;> cases hnested : grammar.definitions.find? c
      all_goals simp_all
  | succ callsLeft ih =>
      intro c hc
      obtain ⟨hname, hmeaning⟩ := h c hc
      rw [← Dictionary.isSome_find?, ← Dictionary.isSome_find?] at hname
      funext evaluation
      unfold Pattern.mention mention
      cases hbody : definitions.find? c with
      | none =>
          cases hnested : grammar.definitions.find? c with
          | none => rfl
          | some nested => simp [hbody, hnested] at hname
      | some body =>
          cases hnested : grammar.definitions.find? c with
          | none => simp [hbody, hnested] at hname
          | some nested =>
              obtain ⟨hparse, hinner⟩ := hmeaning body nested hbody hnested
              simp only [hparse]
              exact Pattern.evaluateWith_congr body (ih hinner) evaluation

private theorem coherent_of_agrees {callsLeft : Nat} {grammar : Grammar} {pattern : Pattern}
    (h : Agrees definitions callsLeft grammar pattern) :
    Coherent definitions callsLeft grammar pattern := by
  intro chain hlength
  induction chain generalizing callsLeft grammar pattern with
  | nil =>
      refine ⟨rfl, ?_⟩
      rintro scope body hfollow c hc
      cases hfollow
      cases callsLeft with
      | zero => exact (h c hc).1
      | succ callsLeft => exact (h c hc).1
  | cons name chain ih =>
      cases callsLeft with
      | zero => contradiction
      | succ callsLeft =>
          simp only [follow, Pattern.follow]
          split
          · rename_i hmem
            obtain ⟨hname, hmeaning⟩ := h name hmem
            rw [← Dictionary.isSome_find?, ← Dictionary.isSome_find?] at hname
            cases hbody : definitions.find? name with
            | none =>
                have hnested : grammar.definitions.find? name = none := by
                  simpa [hbody] using hname.symm
                simp [hnested]
            | some body =>
                obtain ⟨nested, hnested⟩ :=
                  Option.isSome_iff_exists.mp (hname.symm.trans (by rw [hbody]; rfl))
                obtain ⟨hparse, hinner⟩ := hmeaning body nested hbody hnested
                simp only [hnested, hparse]
                exact ih hinner (Nat.le_of_succ_le_succ hlength)
          · simp

private theorem agrees_of_coherent {callsLeft : Nat} {grammar : Grammar} {pattern : Pattern}
    (h : Coherent definitions callsLeft grammar pattern) :
    Agrees definitions callsLeft grammar pattern := by
  induction callsLeft generalizing grammar pattern with
  | zero =>
      intro c hc
      exact ⟨(h [] (Nat.le_refl 0)).2 grammar pattern rfl c hc, trivial⟩
  | succ callsLeft ih =>
      intro c hc
      refine ⟨(h [] (Nat.zero_le _)).2 grammar pattern rfl c hc, ?_⟩
      intro body nested hbody hnested
      -- the chain of `c` alone gives the pattern, and the chains that begin with `c` the rest
      have hone := (h [c] (Nat.le_add_left 1 callsLeft)).1
      simp only [follow, Pattern.follow, if_pos hc, hbody, hnested] at hone
      cases hparse : Pattern.parse nested.source with
      | error e => simp [hparse] at hone
      | ok found =>
          have hfound : found = body := by simpa [hparse] using hone
          subst hfound
          refine ⟨rfl, ih ?_⟩
          intro chain hlength
          have hchain := h (c :: chain) (Nat.succ_le_succ hlength)
          simpa only [follow, Pattern.follow, if_pos hc, hbody, hnested, hparse] using hchain

theorem agrees_iff_coherent {callsLeft : Nat} {grammar : Grammar} {pattern : Pattern} :
    Agrees definitions callsLeft grammar pattern ↔
      Coherent definitions callsLeft grammar pattern :=
  ⟨coherent_of_agrees, agrees_of_coherent⟩

/-- A coherent grammar means the same with one dictionary as with its scopes. -/
theorem evaluate_eq_of_coherent {grammar : Grammar} {root : Pattern}
    (h : Coherent definitions maxCalls grammar root) (source : σ) :
    root.evaluate definitions source = grammar.evaluate root source :=
  Pattern.evaluateWith_congr root (mention_eq_of_agrees (agrees_iff_coherent.mpr h)) _

end Grammar

/-! ## Runs -/

/-- Without definitions the root is all there is to compile. -/
theorem Grammar.compile_root {source : List Char} {root : Pattern}
    (hroot : Pattern.parse source = .ok root) (hfault : compileFault [] root = none) :
    (Grammar.mk source []).compile = .ok (Layout.assemble [] root).toArray := by
  have hcode := (compile_eq_ok_iff []).mpr ⟨hfault, rfl⟩
  simp only [Grammar.compile, Grammar.patterns, Grammar.source, Grammar.definitions,
    Grammar.gather, hroot, hcode]

variable [LawfulDraw σ]

/-- What a run of the code of a pattern without definitions gives. -/
def Pattern.spoken (root : Pattern) (source : σ) : String × σ :=
  ((root.evaluate [] source).latest.output, (root.evaluate [] source).latest.source)

/-- Without definitions every syllable is what the root comes to. -/
theorem Words.generate_root {text : List Char} {root : Pattern}
    (hroot : Pattern.parse text = .ok root) (hfault : compileFault [] root = none)
    {options : Options} (hsyllables : checkSyllables options.syllables = .ok ())
    (hwords : options.words.toNat ≤ maxWords) (source : σ) :
    generate (.mk text []) options source =
      let (words, source) := collect (fun source =>
        let (count, source) := count options.syllables source
        let (syllables, source) := collect root.spoken count source #[]
        (options.separator.intercalate syllables.toList, source)) options.words.toNat source #[]
      (.ok (if options.duplicates then words.toList else withoutRepeats words.toList), source) := by
  have hcode := (compile_eq_ok_iff []).mpr ⟨hfault, rfl⟩
  have hrun : run (σ := σ) (Layout.assemble [] root).toArray = root.spoken :=
    funext fun source => (run_eq_evaluate [] hcode source).2
  simp only [generate, hsyllables, Grammar.compile_root hroot hfault,
    if_neg (Nat.not_lt.mpr hwords)]
  unfold word
  rw [hrun]

theorem Grammar.compile_eq_ok {grammar : Grammar} {code : Bytecode}
    (h : grammar.compile = .ok code) :
    ∃ root definitions, Pattern.parse grammar.source = .ok root ∧
      grammar.patterns = .ok definitions ∧ Wordmill.compile root definitions = .ok code := by
  unfold Grammar.compile at h
  split at h
  · contradiction
  · rename_i root hroot
    split at h
    · contradiction
    · rename_i definitions hdefinitions
      split at h
      · contradiction
      · rename_i found hfound
        cases h
        exact ⟨root, definitions, hroot, hdefinitions, hfound⟩

/--
A run of the code of a grammar does what evaluation with the one dictionary of
all definitions does, and what evaluation with scopes does if the grammar is
coherent.
-/
theorem run_grammar {grammar : Grammar} {code : Bytecode} (hcode : grammar.compile = .ok code)
    (source : σ) :
    ∃ root definitions, Pattern.parse grammar.source = .ok root ∧
      grammar.patterns = .ok definitions ∧
      (runFrom code (stepBudget code) initial (Recorded.ofSource source)).halt =
        some (root.evaluate definitions (Recorded.ofSource source)).halt ∧
      run code (Recorded.ofSource source) =
        ((root.evaluate definitions (Recorded.ofSource source)).latest.output,
          (root.evaluate definitions (Recorded.ofSource source)).latest.source) ∧
      (grammar.Coherent definitions maxCalls root →
        run code (Recorded.ofSource source) =
          ((grammar.evaluate root (Recorded.ofSource source)).latest.output,
            (grammar.evaluate root (Recorded.ofSource source)).latest.source)) := by
  obtain ⟨root, definitions, hroot, hdefinitions, hcompile⟩ := Grammar.compile_eq_ok hcode
  obtain ⟨hhalt, hrun⟩ := run_eq_evaluate definitions hcompile (Recorded.ofSource source)
  refine ⟨root, definitions, hroot, hdefinitions, hhalt, hrun, ?_⟩
  intro hcoherent
  rw [hrun, Grammar.evaluate_eq_of_coherent hcoherent]

/-- With scopes a definition does not see its own name, but the dictionary holds it. -/
example :
    (Grammar.evaluate (.mk ['A'] [('A', .mk ['x', 'A'] [])]) (.text ['A'])
        (Script.mk [] .low)).latest.output = "xA" ∧
      ((Pattern.text ['A']).evaluate [('A', .text ['x', 'A'])]
        (Script.mk [] .low)).latest.output = String.ofList (List.replicate 256 'x') := by
  decide +kernel

/-! The nasals are seen by the consonants only, which the root sees. -/

def nasals : Grammar := .mk ['m', '/', 'n'] []

def consonants : Grammar := .mk ['p', '/', 'N'] [('N', nasals)]

def syllables : Grammar := .mk ['(', 'C', ')', 'a'] [('C', consonants)]

def nasalPattern : Pattern := .sequence [.choice [.text ['m'], .text ['n']]]

def consonantPattern : Pattern := .sequence [.choice [.text ['p'], .text ['N']]]

def syllablePattern : Pattern := .sequence [.optional (.sequence [.text ['C']]), .text ['a']]

def syllableDefinitions : Dictionary Pattern := [('C', consonantPattern), ('N', nasalPattern)]

theorem patterns_syllables : syllables.patterns = .ok syllableDefinitions := by
  have hconsonants : Pattern.parse ['p', '/', 'N'] = .ok consonantPattern := by rfl
  have hnasals : Pattern.parse ['m', '/', 'n'] = .ok nasalPattern := by rfl
  simp [Grammar.patterns, syllables, consonants, nasals, Grammar.definitions, Grammar.gather,
    Dictionary.hasName, Dictionary.insert, hconsonants, hnasals, syllableDefinitions]

theorem subroutines_syllables :
    Layout.subroutines syllableDefinitions syllablePattern = syllableDefinitions := by
  rw [Layout.subroutines,
    show syllablePattern.mentions syllableDefinitions = ['C'] from rfl,
    Layout.reached_of_some syllableDefinitions [] rfl]
  congr 1
  refine (Layout.reached_of_some syllableDefinitions [] rfl).trans ?_
  congr 1
  exact Layout.reached_nil _ _

private theorem compile_syllables : ∃ code, syllables.compile = .ok code := by
  have hroot : Pattern.parse syllables.source = .ok syllablePattern := by rfl
  have hfault : compileFault syllableDefinitions syllablePattern = none := by
    simp only [compileFault, Layout.program, subroutines_syllables]
    rfl
  have hcompile := (compile_eq_ok_iff syllableDefinitions).mpr ⟨hfault, rfl⟩
  simp only [Grammar.compile, hroot, patterns_syllables, hcompile]
  exact ⟨_, rfl⟩

private theorem agrees_syllables :
    syllables.Agrees syllableDefinitions maxCalls syllablePattern := by
  intro c hc
  have hc : c = 'C' ∨ c = 'a' := by
    simpa [syllablePattern, Pattern.unquoted, Pattern.unquotedEach] using hc
  rcases hc with rfl | rfl
  · refine ⟨by decide, ?_⟩
    intro body nested hbody hnested
    cases hbody
    cases hnested
    refine ⟨by rfl, ?_⟩
    intro c hc
    have hc : c = 'p' ∨ c = 'N' := by
      simpa [consonantPattern, Pattern.unquoted, Pattern.unquotedEach] using hc
    rcases hc with rfl | rfl
    · exact ⟨by decide, fun body nested hbody => by contradiction⟩
    · refine ⟨by decide, ?_⟩
      intro body nested hbody hnested
      cases hbody
      cases hnested
      refine ⟨by rfl, ?_⟩
      intro c hc
      have hc : c = 'm' ∨ c = 'n' := by
        simpa [nasalPattern, Pattern.unquoted, Pattern.unquotedEach] using hc
      rcases hc with rfl | rfl
      · exact ⟨by decide, fun body nested hbody => by contradiction⟩
      · exact ⟨by decide, fun body nested hbody => by contradiction⟩
  · exact ⟨by decide, fun body nested hbody => by contradiction⟩

theorem run_syllables :
    Grammar.load "N = m/n\nC = p/N\n(C)a".toList = .ok syllables ∧
      ∃ code, syllables.compile = .ok code ∧
        (run code (Recorded.ofSource (Script.mk [1, 2, 1] .low))).1 = "ma" ∧
        (run code (Recorded.ofSource (Script.mk [1, 2, 1] .low))).2.requests =
          #[(1, 2), (1, 2), (1, 2)] := by
  obtain ⟨code, hcode⟩ := compile_syllables
  obtain ⟨root, definitions, hparse, hdefinitions, -, -, hscoped⟩ :=
    run_grammar hcode (Script.mk [1, 2, 1] .low)
  have hroot : Pattern.parse syllables.source = .ok syllablePattern := by rfl
  cases hroot.symm.trans hparse
  cases patterns_syllables.symm.trans hdefinitions
  have hrun := hscoped (Grammar.agrees_iff_coherent.mp agrees_syllables)
  refine ⟨by rfl, code, hcode, ?_⟩
  rw [hrun]
  exact ⟨by decide +kernel, by decide +kernel⟩

end Wordmill
