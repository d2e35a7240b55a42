import Mathlib.Data.List.Forall2
import Wordmill.Draw.Script
import Wordmill.Proofs.Bytecode.Correctness
import Wordmill.Proofs.Bytecode.Failure
import Wordmill.Proofs.Bytecode.Safety

/-!
# The language of a pattern

The words of a pattern are given by derivations, which know nothing of draws.
Compiled code writes all of these words that have a derivation with no more
nested mentions than there may be pending returns, and no other words.
-/

namespace Wordmill

/-- A draw within the bounds of a request. -/
def Answers (draw : Nat) (request : Nat × Nat) : Prop := request.1 ≤ draw ∧ draw ≤ request.2

namespace Pattern

variable {definitions : Dictionary Pattern}

/--
A word of a pattern.  The number tells how deep mentions of definitions are
nested in the derivation.
-/
inductive Derives (definitions : Dictionary Pattern) : Pattern → List Char → Nat → Prop
  | nothing : Derives definitions (.sequence []) [] 0
  | part {part : Pattern} {parts : List Pattern} {word others : List Char} {m n : Nat} :
      Derives definitions part word m → Derives definitions (.sequence parts) others n →
      Derives definitions (.sequence (part :: parts)) (word ++ others) (max m n)
  | blank : Derives definitions (.text []) [] 0
  | letter {c : Char} {chars others : List Char} {n : Nat} :
      definitions.find? c = none → Derives definitions (.text chars) others n →
      Derives definitions (.text (c :: chars)) (c :: others) n
  | mention {c : Char} {chars word others : List Char} {body : Pattern} {m n : Nat} :
      definitions.find? c = some body → Derives definitions body word m →
      Derives definitions (.text chars) others n →
      Derives definitions (.text (c :: chars)) (word ++ others) (max (m + 1) n)
  | quoted (chars : List Char) : Derives definitions (.quoted chars) chars 0
  | alternative {alternative : Pattern} {alternatives : List Pattern} {word : List Char} {n : Nat} :
      alternative ∈ alternatives → Derives definitions alternative word n →
      Derives definitions (.choice alternatives) word n
  | taken {body : Pattern} {word : List Char} {n : Nat} :
      Derives definitions body word n → Derives definitions (.optional body) word n
  | omitted (body : Pattern) : Derives definitions (.optional body) [] 0

/-! ## Every word is written -/

/-- Some draws, all within the bounds of what is requested, lead to the word. -/
def Writes (proceed : Evaluation (Recorded Script) → Progress (Recorded Script))
    (word : List Char) : Prop :=
  ∃ draws requests, List.Forall₂ Answers draws requests ∧ ∀ rest output log,
    proceed ⟨output, ⟨⟨draws ++ rest, .low⟩, log⟩⟩ =
      .ok ⟨word.foldl String.push output, ⟨⟨rest, .low⟩, log ++ requests.toArray⟩⟩

namespace Writes

variable {proceed others : Evaluation (Recorded Script) → Progress (Recorded Script)}
  {word rest : List Char}

theorem quoted (chars : List Char) :
    Writes (fun evaluation => .ok (chars.foldl Evaluation.write evaluation)) chars := by
  refine ⟨[], [], .nil, ?_⟩
  intro rest output log
  simp [Evaluation.foldl_write]

theorem bind (hfirst : Writes proceed word) (hothers : Writes others rest) :
    Writes (fun evaluation => (proceed evaluation).bind others) (word ++ rest) := by
  obtain ⟨draws, requests, hanswers, hfirst⟩ := hfirst
  obtain ⟨moreDraws, moreRequests, hmore, hothers⟩ := hothers
  refine ⟨draws ++ moreDraws, requests ++ moreRequests, List.rel_append hanswers hmore, ?_⟩
  intro rest output log
  simp only [List.append_assoc, hfirst, Except.bind, hothers, List.foldl_append]
  simp

theorem draw (choose : Nat → Evaluation (Recorded Script) → Progress (Recorded Script))
    {answer high : Nat} (hpos : 1 ≤ answer) (hle : answer ≤ high)
    (h : Writes (choose answer) word) :
    Writes (fun evaluation => choose (evaluation.draw high).1 (evaluation.draw high).2) word := by
  obtain ⟨draws, requests, hanswers, hchoose⟩ := h
  refine ⟨answer :: draws, (1, high) :: requests, .cons ⟨hpos, hle⟩ hanswers, ?_⟩
  intro rest output log
  have hclamped : max 1 (min answer high) = answer := by omega
  simp only [Evaluation.draw, Draw.between, Script.between, List.cons_append, hclamped, hchoose]
  simp

end Writes

/-- A word is written if no more mentions are nested in its derivation than calls are left. -/
theorem Derives.writes {pattern : Pattern} {word : List Char} {depth callsLeft : Nat}
    (h : Derives definitions pattern word depth) (hle : depth ≤ callsLeft) :
    Writes (pattern.evaluateWith (Pattern.mention definitions callsLeft)) word := by
  induction h generalizing callsLeft with
  | nothing => exact .quoted []
  | part _ _ ihpart ihparts => exact (ihpart (by omega)).bind (ihparts (by omega))
  | blank => exact .quoted []
  | @letter c chars others n hnone _ ih =>
      have hfirst : Writes (Pattern.mention definitions callsLeft c) [c] := by
        rw [mention_of_none hnone]
        exact .quoted [c]
      exact hfirst.bind (ih hle)
  | @mention c chars word others body m n hbody _ _ ihbody ihchars =>
      -- the depth counts this mention, so a call is left for it
      obtain ⟨callsLeft, rfl⟩ : ∃ fewer, callsLeft = fewer + 1 := ⟨callsLeft - 1, by omega⟩
      have hfirst : Writes (Pattern.mention definitions (callsLeft + 1) c) word := by
        rw [mention_of_some hbody]
        exact ihbody (by omega)
      exact hfirst.bind (ihchars (by omega))
  | quoted chars => exact .quoted chars
  | alternative hmem _ ih =>
      obtain ⟨index, hlt, halternative⟩ := List.mem_iff_getElem.mp hmem
      have hword := ih hle
      rw [← evaluateNth_of_getElem? _ (List.getElem?_eq_some_iff.mpr ⟨hlt, halternative⟩)] at hword
      exact .draw (fun answer => evaluateNth _ _ (answer - 1)) (Nat.le_add_left 1 index) hlt hword
  | taken _ ih =>
      have hword := ih hle
      exact .draw (fun answer evaluation =>
        if answer = 1 then evaluateWith _ _ evaluation else .ok evaluation)
        (Nat.le_refl 1) (Nat.le_succ 1) hword
  | omitted body =>
      exact .draw (fun answer evaluation =>
        if answer = 1 then evaluateWith _ _ evaluation else .ok evaluation)
        (Nat.le_succ 1) (Nat.le_refl 2) (.quoted [])

/-! ## Nothing else is written -/

/-- Some derivation of the word has at most `bound` nested mentions. -/
def Language (definitions : Dictionary Pattern) (bound : Nat) (pattern : Pattern)
    (word : List Char) : Prop :=
  ∃ depth ≤ bound, Derives definitions pattern word depth

/-- What a character of unquoted text stands for. -/
inductive Means (definitions : Dictionary Pattern) (bound : Nat) (c : Char) : List Char → Prop
  | itself : definitions.find? c = none → Means definitions bound c [c]
  | definition {body : Pattern} {word : List Char} {depth : Nat} :
      definitions.find? c = some body → Derives definitions body word depth → depth < bound →
      Means definitions bound c word

section

variable {σ : Type}

/-- Whenever an evaluation goes on, it has written one of these words. -/
def WritesOnly (proceed : Evaluation σ → Progress σ) (words : List Char → Prop) : Prop :=
  ∀ evaluation next, proceed evaluation = .ok next →
    ∃ word, words word ∧ next.output = word.foldl String.push evaluation.output

theorem WritesOnly.mono {proceed : Evaluation σ → Progress σ} {words others : List Char → Prop}
    (h : WritesOnly proceed words) (hsubset : ∀ word, words word → others word) :
    WritesOnly proceed others := by
  intro evaluation next hnext
  obtain ⟨word, hword, houtput⟩ := h evaluation next hnext
  exact ⟨word, hsubset word hword, houtput⟩

theorem WritesOnly.bind {proceed others : Evaluation σ → Progress σ}
    {words rests words' : List Char → Prop} (hfirst : WritesOnly proceed words)
    (hothers : WritesOnly others rests)
    (happend : ∀ word rest, words word → rests rest → words' (word ++ rest)) :
    WritesOnly (fun evaluation => (proceed evaluation).bind others) words' := by
  intro evaluation last hlast
  cases hmiddle : proceed evaluation with
  | error stopped =>
      simp only [hmiddle, Except.bind] at hlast
      contradiction
  | ok next =>
      simp only [hmiddle, Except.bind] at hlast
      obtain ⟨word, hword, hnext⟩ := hfirst evaluation next hmiddle
      obtain ⟨rest, hrest, houtput⟩ := hothers next last hlast
      refine ⟨word ++ rest, happend word rest hword hrest, ?_⟩
      rw [List.foldl_append, houtput, hnext]

theorem writesOnly_write (chars : List Char) {words : List Char → Prop} (h : words chars) :
    WritesOnly (fun evaluation : Evaluation σ => .ok (chars.foldl Evaluation.write evaluation))
      words := by
  intro evaluation next hnext
  cases hnext
  rw [Evaluation.foldl_write]
  exact ⟨chars, h, rfl⟩

variable {mention : Char → Evaluation σ → Progress σ} {bound : Nat}

private theorem writesOnly_evaluateText {chars : List Char}
    (hmention : ∀ c ∈ chars, WritesOnly (mention c) (Means definitions bound c)) :
    WritesOnly (evaluateText mention chars) (Language definitions bound (.text chars)) := by
  induction chars with
  | nil => exact writesOnly_write [] ⟨0, Nat.zero_le _, .blank⟩
  | cons c chars ih =>
      refine (hmention c List.mem_cons_self).bind
        (ih fun c hmem => hmention c (List.mem_cons_of_mem _ hmem)) ?_
      rintro word rest hmeans ⟨n, hn, hrest⟩
      cases hmeans with
      | itself hnone => exact ⟨n, hn, .letter hnone hrest⟩
      | @definition body word m hbody hword hlt =>
          exact ⟨max (m + 1) n, by omega, .mention hbody hword hrest⟩

variable [Draw σ]

-- Without its root or a definition being checked, a choice might be empty, and a run would go on
-- behind it although its language has no word.
mutual

theorem writesOnly_evaluateWith [LawfulDraw σ] (pattern : Pattern)
    (hfilled : ∀ node ∈ pattern.nodes, node.isEmpty = false)
    (hmention : ∀ c ∈ pattern.unquoted, WritesOnly (mention c) (Means definitions bound c)) :
    WritesOnly (pattern.evaluateWith mention) (Language definitions bound pattern) := by
  cases pattern with
  | sequence parts =>
      exact writesOnly_evaluateEach parts
        (fun node hnode => hfilled node (List.mem_cons_of_mem _ hnode)) hmention
  | text chars => exact writesOnly_evaluateText hmention
  | quoted chars => exact writesOnly_write chars ⟨0, Nat.zero_le _, .quoted chars⟩
  | choice alternatives =>
      intro evaluation next hnext
      have hempty := hfilled _ List.mem_cons_self
      have hpos : 1 ≤ alternatives.length := by
        simp only [isEmpty, decide_eq_false_iff_not] at hempty
        omega
      have hlow := LawfulDraw.low_le 1 alternatives.length evaluation.source hpos
      have hhigh := LawfulDraw.le_high 1 alternatives.length evaluation.source hpos
      exact writesOnly_evaluateNth alternatives
        ((Draw.between 1 alternatives.length evaluation.source).1 - 1) (by omega)
        (fun node hnode => hfilled node (List.mem_cons_of_mem _ hnode)) hmention
        (evaluation.draw alternatives.length).2 next hnext
  | optional body =>
      intro evaluation next hnext
      have hbody := writesOnly_evaluateWith body
        (fun node hnode => hfilled node (List.mem_cons_of_mem _ hnode)) hmention
      simp only [evaluateWith] at hnext
      split at hnext
      · obtain ⟨word, ⟨depth, hle, hword⟩, houtput⟩ := hbody _ next hnext
        exact ⟨word, ⟨depth, hle, .taken hword⟩, houtput⟩
      · cases hnext
        exact ⟨[], ⟨0, Nat.zero_le _, .omitted body⟩, rfl⟩

theorem writesOnly_evaluateEach [LawfulDraw σ] (parts : List Pattern)
    (hfilled : ∀ node ∈ nodesEach parts, node.isEmpty = false)
    (hmention : ∀ c ∈ unquotedEach parts, WritesOnly (mention c) (Means definitions bound c)) :
    WritesOnly (evaluateEach mention parts) (Language definitions bound (.sequence parts)) := by
  match parts with
  | [] => exact writesOnly_write [] ⟨0, Nat.zero_le _, .nothing⟩
  | part :: parts =>
      have hpart := writesOnly_evaluateWith part
        (fun node hnode => hfilled node (List.mem_append_left _ hnode))
        (fun c hmem => hmention c (List.mem_append_left _ hmem))
      have hparts := writesOnly_evaluateEach parts
        (fun node hnode => hfilled node (List.mem_append_right _ hnode))
        (fun c hmem => hmention c (List.mem_append_right _ hmem))
      apply hpart.bind hparts
      rintro word rest ⟨m, hm, hword⟩ ⟨n, hn, hrest⟩
      exact ⟨max m n, by omega, .part hword hrest⟩

theorem writesOnly_evaluateNth [LawfulDraw σ] (alternatives : List Pattern) (index : Nat)
    (hlt : index < alternatives.length)
    (hfilled : ∀ node ∈ nodesEach alternatives, node.isEmpty = false)
    (hmention : ∀ c ∈ unquotedEach alternatives,
      WritesOnly (mention c) (Means definitions bound c)) :
    WritesOnly (evaluateNth mention alternatives index)
      (Language definitions bound (.choice alternatives)) := by
  match alternatives, index with
  | [], _ => contradiction
  | alternative :: others, 0 =>
      have halternative := writesOnly_evaluateWith alternative
        (fun node hnode => hfilled node (List.mem_append_left _ hnode))
        (fun c hmem => hmention c (List.mem_append_left _ hmem))
      apply halternative.mono
      rintro word ⟨depth, hle, hword⟩
      exact ⟨depth, hle, .alternative List.mem_cons_self hword⟩
  | alternative :: others, index + 1 =>
      have hothers := writesOnly_evaluateNth others index (Nat.lt_of_succ_lt_succ hlt)
        (fun node hnode => hfilled node (List.mem_append_right _ hnode))
        (fun c hmem => hmention c (List.mem_append_right _ hmem))
      apply hothers.mono
      rintro word ⟨depth, hle, hword⟩
      cases hword with
      | alternative hmem hword =>
          exact ⟨depth, hle, .alternative (List.mem_cons_of_mem alternative hmem) hword⟩

end

theorem writesOnly_mention_of_none {c : Char} (h : definitions.find? c = none) (callsLeft : Nat) :
    WritesOnly (σ := σ) (Pattern.mention definitions callsLeft c)
      (Means definitions callsLeft c) := by
  rw [mention_of_none h]
  exact writesOnly_write [c] (.itself h)

end

end Pattern

open Layout Machine

variable {definitions : Dictionary Pattern} {σ : Type} [Draw σ] [LawfulDraw σ]
  {pattern : Pattern} {code : Bytecode}

private theorem isEmpty_of_reached (hcode : compile pattern definitions = .ok code) {name : Char}
    {body node : Pattern} (hreached : Reached definitions pattern name)
    (hbody : definitions.find? name = some body) (hnode : node ∈ body.nodes) :
    node.isEmpty = false := by
  rw [← mem_subroutines_iff] at hreached
  obtain ⟨⟨name, found⟩, hentry, rfl⟩ := List.mem_map.mp hreached
  rw [find?_of_mem_reached definitions hentry] at hbody
  cases hbody
  apply isEmpty_of_compile definitions hcode
  exact List.mem_append_right _ (List.mem_flatMap.mpr ⟨_, hentry, hnode⟩)

/-- A definition is evaluated with one call less than its mention. -/
theorem writesOnly_mention (hcode : compile pattern definitions = .ok code) (callsLeft : Nat)
    {c : Char} (hreached : definitions.hasName c = true → Reached definitions pattern c) :
    Pattern.WritesOnly (σ := σ) (Pattern.mention definitions callsLeft c)
      (Pattern.Means definitions callsLeft c) := by
  induction callsLeft generalizing c with
  | zero =>
      cases hbody : definitions.find? c with
      | none => exact Pattern.writesOnly_mention_of_none hbody 0
      | some body =>
          intro evaluation next hnext
          simp only [Pattern.mention, hbody] at hnext
          contradiction
  | succ callsLeft ih =>
      cases hbody : definitions.find? c with
      | none => exact Pattern.writesOnly_mention_of_none hbody _
      | some body =>
          have hname : definitions.hasName c = true := by
            rw [← Dictionary.isSome_find?, hbody]
            rfl
          have hthrough (other : Char) (hother : other ∈ body.unquoted)
              (hdefined : definitions.hasName other = true) : Reached definitions pattern other :=
            .through (hreached hname) hbody (List.mem_filter.mpr ⟨hother, hdefined⟩)
          rw [Pattern.mention_of_some hbody]
          have honly := Pattern.writesOnly_evaluateWith body
            (fun _ => isEmpty_of_reached hcode (hreached hname) hbody)
            (fun other hother => ih (hthrough other hother))
          apply honly.mono
          rintro word ⟨depth, hle, hword⟩
          exact .definition hbody hword (Nat.lt_succ_of_le hle)

private theorem language_of_evaluate (hcode : compile pattern definitions = .ok code) {source : σ}
    {next : Evaluation σ} (h : pattern.evaluate definitions source = .ok next) :
    pattern.Language definitions maxCalls next.output.toList := by
  have hmention (c : Char) (hmem : c ∈ pattern.unquoted) :=
    writesOnly_mention (σ := σ) hcode maxCalls 
      fun hname => .mentioned (List.mem_filter.mpr ⟨hmem, hname⟩)
  have honly := Pattern.writesOnly_evaluateWith pattern
    (fun node hnode => isEmpty_of_compile definitions hcode (List.mem_append_left _ hnode)) hmention
  obtain ⟨word, hword, houtput⟩ := honly _ next h
  rw [houtput, toList_foldl_push]
  exact hword

/--
Compiled code writes exactly the words that have a derivation in which mentions
are nested no deeper than returns may be pending: for each such word there are
draws, all of them within the bounds that the run asks for and none to spare,
for which it writes the word and halts.
-/
theorem language_iff_run (hcode : compile pattern definitions = .ok code) (word : String) :
    (∃ depth ≤ maxCalls, pattern.Derives definitions word.toList depth) ↔
      ∃ draws : List Nat,
        let source := Recorded.ofSource (Script.mk draws .low)
        (runFrom code (stepBudget code) initial source).halt = some .halted ∧
          (run code source).1 = word ∧
          List.Forall₂ Answers draws (run code source).2.requests.toList := by
  constructor
  · rintro ⟨depth, hle, hderives⟩
    obtain ⟨draws, requests, hanswers, hwrites⟩ := hderives.writes hle
    have hevaluate : pattern.evaluate definitions (Recorded.ofSource (Script.mk draws .low)) =
        .ok ⟨word.toList.foldl String.push "", ⟨⟨[], .low⟩, requests.toArray⟩⟩ := by
      have := hwrites [] "" #[]
      rwa [List.append_nil, Array.empty_append] at this
    have hword : word.toList.foldl String.push "" = word := by
      apply String.toList_injective
      rw [toList_foldl_push, String.toList_empty, List.nil_append]
    obtain ⟨hhalt, hrun⟩ := run_eq_evaluate definitions hcode
      (Recorded.ofSource (Script.mk draws .low))
    rw [hword] at hevaluate
    rw [hevaluate] at hhalt hrun
    refine ⟨draws, hhalt, ?_, ?_⟩
    · rw [hrun]
      rfl
    · rw [hrun]
      exact hanswers
  · rintro ⟨draws, hhalt, houtput, -⟩
    obtain ⟨hevaluated, hrun⟩ := run_eq_evaluate definitions hcode
      (Recorded.ofSource (Script.mk draws .low))
    cases hprogress : pattern.evaluate definitions (Recorded.ofSource (Script.mk draws .low)) with
    | error stopped =>
        rw [hevaluated, hprogress] at hhalt
        simp only [Progress.halt, Option.some.injEq, reduceCtorEq] at hhalt
    | ok next =>
        rw [hrun, hprogress] at houtput
        rw [← houtput]
        exact language_of_evaluate hcode hprogress

/-- The first syllable mentions itself once. -/
theorem derives_recursiveSyllable :
    (Pattern.text ['S', 'S']).Derives recursiveSyllable "dbd".toList 2 := by
  have hlast (c : Char) (hc : recursiveSyllable.find? c = none)
      (hmem : Pattern.text [c] ∈ [.text ['b'], .text ['d']]) :
      Pattern.Derives recursiveSyllable (.sequence [.choice [.text ['b'], .text ['d']],
        .optional (.text ['S'])]) [c] 0 :=
    .part (.alternative hmem (.letter hc .blank)) (.part (.omitted _) .nothing)
  have hfirst : Pattern.Derives recursiveSyllable (.sequence [.choice [.text ['b'], .text ['d']],
      .optional (.text ['S'])]) ['d', 'b'] 1 :=
    .part (.alternative (by simp) (.letter rfl .blank))
      (.part (.taken (.mention rfl (hlast 'b' rfl (by simp)) .blank)) .nothing)
  exact .mention rfl hfirst (.mention rfl (hlast 'd' rfl (by simp)) .blank)

theorem language_recursiveSyllable :
    ∃ code, compile (.text ['S', 'S']) recursiveSyllable = .ok code ∧
      ∃ draws : List Nat,
        let source := Recorded.ofSource (Script.mk draws .low)
        (runFrom code (stepBudget code) initial source).halt = some .halted ∧
          (run code source).1 = "dbd" ∧
          List.Forall₂ Answers draws (run code source).2.requests.toList := by
  have hfault : compileFault recursiveSyllable (.text ['S', 'S']) = none := by
    simp only [compileFault, program, subroutines_recursiveSyllable]
    rfl
  have hcode := (compile_eq_ok_iff recursiveSyllable).mpr ⟨hfault, rfl⟩
  have hdepth : 2 ≤ maxCalls := by decide
  exact ⟨_, hcode, (language_iff_run hcode "dbd").mp ⟨2, hdepth, derives_recursiveSyllable⟩⟩

end Wordmill
