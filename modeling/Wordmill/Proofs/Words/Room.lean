import Wordmill.Proofs.Bytecode.Tiling
import Wordmill.Proofs.Grammar.Compiling
import Wordmill.Proofs.Words.Drafts

/-!
# Room for words

Words made with every operation checked and every buffer measured.  A list of
texts is given its whole length at once.  Text is not larger than what it becomes a
part of, so that it does not matter where it is measured first.
-/

namespace Wordmill

namespace Checked

open Machine (State Bounded stepBudget)

def size (text : String) : Nat := Text.bytes text.toList

/-- A list of texts takes 24 bytes for each of them. -/
def reserve (count : Nat) : Except Panic Unit :=
  if Words.maxWords < count then .error .capacity else .ok ()

theorem reserve_of_le {count : Nat} (h : count ≤ Words.maxWords) : reserve count = .ok () :=
  if_neg (Nat.not_lt.mpr h)

theorem size_append (front back : String) : size (front ++ back) = size front + size back := by
  simp [size]

theorem size_le_intercalate {text : String} {texts : List String} (h : text ∈ texts)
    (separator : String) : size text ≤ size (separator.intercalate texts) := by
  induction texts with
  | nil => contradiction
  | cons first others ih =>
      cases others with
      | nil =>
          obtain rfl := List.mem_singleton.mp h
          exact Nat.le_of_eq (congrArg size String.intercalate_singleton.symm)
      | cons second others =>
          rw [String.intercalate_cons_cons, size_append, size_append]
          rcases List.mem_cons.mp h with rfl | h
          · omega
          · have := ih h
            omega

/-! ## One text after another -/

section

variable {σ : Type}

def collect {α : Type} (next : σ → Except Panic (α × σ)) :
    Nat → σ → Array α → Except Panic (Array α × σ)
  | 0, source, answers => return (answers, source)
  | n + 1, source, answers => do
      let (answer, source) ← next source
      collect next n source (answers.push answer)

/-- The checked operation needs no more room than for its text. -/
def Fits (next : σ → String × σ) (checked : σ → Except Panic (String × σ)) : Prop :=
  ∀ source peak, size (next source).1 ≤ peak → Takes peak (checked source) (.ok (next source))

theorem takes_collect {next : σ → String × σ} {checked : σ → Except Panic (String × σ)}
    {source last : σ} {answers : List String} {peak : Nat} (h : Fits next checked)
    (hanswers : Words.Answers next source answers last) (hall : ∀ text ∈ answers, size text ≤ peak)
    (before : Array String) :
    Takes peak (collect checked answers.length source before)
      (.ok (before ++ answers.toArray, last)) := by
  induction hanswers generalizing before with
  | nil source =>
      rw [List.length_nil, collect, Array.append_empty]
      exact .refl ..
  | @cons source last answers _ ih =>
      obtain ⟨hfirst, hothers⟩ := List.forall_mem_cons.mp hall
      have hpush : before ++ ((next source).1 :: answers).toArray =
          before.push (next source).1 ++ answers.toArray := by simp
      rw [hpush]
      exact .bind (h source peak hfirst) (ih hothers _)

end

variable {σ : Type} [Draw σ] {code : Bytecode}

/-! ## Runs -/

def runFrom (code : Bytecode) : Nat → State → σ → Except Panic (String × σ)
  | 0, _, _ => .error .endless
  | fuel + 1, state, source => do
      match ← orPanic (step code state source) with
      | (.error _, source) => return (state.output, source)
      | (.ok next, source) =>
          let next ← fit (size next.output) next
          runFrom code fuel next source

def run (code : Bytecode) (source : σ) : Except Panic (String × σ) :=
  runFrom code (stepBudget code) Machine.initial source

/-- What has been written when a run ends is at least what had been written before. -/
theorem size_le_runFrom (code : Bytecode) (fuel : Nat) (state : State) (source : σ) :
    size state.output ≤ size (Machine.runFrom code fuel state source).state.output := by
  induction fuel generalizing state source with
  | zero => exact Nat.le_refl _
  | succ fuel ih =>
      rw [Machine.runFrom]
      cases hstep : Machine.step code state source with
      | mk outcome after =>
          cases outcome with
          | error halt => exact Nat.le_refl _
          | ok next =>
              have hprefix := (Machine.moves_of_step hstep).extends_output
              exact Nat.le_trans (Text.bytes_le_of_sublist hprefix.sublist) (ih next after)

/-- A run that halts comes to its end, if there is room for what it writes. -/
theorem takes_runFrom [LawfulDraw σ] (hsize : code.size ≤ maxBytes) {fuel : Nat} {state : State}
    {source : σ} {peak : Nat} (hbounded : Bounded code state)
    (hhalts : (Machine.runFrom code fuel state source).halt ≠ none)
    (hpeak : size (Machine.runFrom code fuel state source).state.output ≤ peak) :
    Takes peak (runFrom code fuel state source)
      (.ok ((Machine.runFrom code fuel state source).state.output,
        (Machine.runFrom code fuel state source).source)) := by
  induction fuel generalizing state source with
  | zero => contradiction
  | succ fuel ih =>
      rw [runFrom, step_eq hsize hbounded, orPanic_ok, ok_bind]
      rw [Machine.runFrom] at hhalts hpeak ⊢
      cases hstep : Machine.step code state source with
      | mk outcome after =>
          rw [hstep] at hhalts hpeak
          cases outcome with
          | error halt => exact .refl ..
          | ok next =>
              have hnext := hbounded.moves (Machine.moves_of_step hstep)
              have hgrows := size_le_runFrom code fuel next after
              exact .bind (.fit (Nat.le_trans hgrows hpeak) next) (ih hnext hhalts hpeak)

private theorem fits_run [LawfulDraw σ] (hsize : code.size ≤ maxBytes)
    (hhalts : ∀ source : σ,
      (Machine.runFrom code (stepBudget code) Machine.initial source).halt ≠ none) :
    Fits (Machine.run (σ := σ) code) (run code) := by
  intro source peak hpeak
  simp only [run, Machine.run] at hpeak ⊢
  exact takes_runFrom hsize (Machine.bounded_initial code) (hhalts source) hpeak

/-! ## Words -/

def count (syllables : Syllables) (source : σ) : Except Fault (Nat × σ) :=
  match syllables with
  | .fixed count => return (count.toNat, source)
  | .range least greatest => between least.toNat greatest.toNat source

def word (code : Bytecode) (options : Options) (source : σ) : Except Panic (String × σ) := do
  let (count, source) ← orPanic (count options.syllables source)
  reserve count
  let (syllables, source) ← collect (run code) count source #[]
  let word := options.separator.intercalate syllables.toList
  fit (size word) (word, source)

theorem count_eq {syllables : Syllables} (hvalid : syllables.Valid) (source : σ) :
    count syllables source = .ok (Words.count syllables source) := by
  cases syllables with
  | fixed count => rfl
  | range least greatest => exact if_pos (UInt32.le_iff_toNat_le.mp hvalid)

private theorem count_le [LawfulDraw σ] {syllables : Syllables} (hvalid : syllables.Valid)
    (source : σ) :
    (Words.count syllables source).1 ≤ Words.maxWords := by
  have hlimit : 2 ^ 32 ≤ Words.maxWords := by decide
  have hallows := Words.allows_count hvalid source
  cases syllables with
  | fixed count =>
      have := count.toNat_lt
      rw [hallows]
      omega
  | range least greatest =>
      have := greatest.toNat_lt
      have := hallows.2
      omega

private theorem fits_word [LawfulDraw σ] (hrun : Fits (Machine.run (σ := σ) code) (run code))
    {options : Options} (hvalid : options.syllables.Valid) :
    Fits (Words.word (σ := σ) code options) (word code options) := by
  intro source peak hpeak
  obtain ⟨hanswers, hlength⟩ := Words.answers_draft code options.syllables source
  have hreserve := reserve_of_le (count_le hvalid source)
  rw [Words.word_eq_draft] at hpeak ⊢
  -- the word is at least as large as each of its syllables
  have hcollect := takes_collect hrun hanswers (fun text hmem =>
    Nat.le_trans (size_le_intercalate hmem options.separator) hpeak) #[]
  rw [hlength, Array.empty_append] at hcollect
  rw [word, count_eq hvalid, orPanic_ok, ok_bind]
  simp only [hreserve, ok_bind]
  exact .bind hcollect (.fit hpeak _)

/-! ## Words of a grammar -/

/-- A panic of the plain call is the one of a list over its capacity. -/
def outcome {ε α : Type} : Except (Failure ε) α × σ → Except Panic (Except ε α × σ)
  | (.error .panic, _) => .error .capacity
  | (.error (.error e), source) => .ok (.error e, source)
  | (.ok value, source) => .ok (.ok value, source)

omit [Draw σ] in
theorem outcome_of_panic {ε α : Type} {made : Except (Failure ε) α × σ}
    (h : made.1 = .error .panic) : outcome made = .error .capacity := by
  rcases made with ⟨_, last⟩
  subst h
  rfl

/-- For each different word, its place among the words seen takes no more than 64 bytes. -/
def dropRepeats (words : List String) : Except Panic (List String) := do
  let kept := Words.withoutRepeats words
  grow (64 * kept.length)
  return kept

def words (code : Bytecode) (options : Options) (source : σ) :
    Except Panic (List String × σ) := do
  reserve options.words.toNat
  let (made, source) ← collect (word code options) options.words.toNat source #[]
  let kept ← if options.duplicates then pure made.toList else dropRepeats made.toList
  return (kept, source)

def generate (grammar : Grammar) (options : Options) (source : σ) :
    Except Panic (Except WordError (List String) × σ) :=
  match Words.checkSyllables options.syllables with
  | .error e => return (.error e, source)
  | .ok () => do
      match ← compile grammar with
      | .error e => return (.error e, source)
      | .ok code =>
          let (words, source) ← words code options source
          return (.ok words, source)

theorem halts_of_compile [LawfulDraw σ] {grammar : Grammar} (h : grammar.compile = .ok code)
    (source : σ) :
    (Machine.runFrom code (stepBudget code) Machine.initial source).halt ≠ none := by
  obtain ⟨root, definitions, -, -, hcode⟩ := Grammar.compile_eq_ok h
  rw [(Machine.run_eq_evaluate definitions hcode source).1]
  exact Option.some_ne_none _

/-- The room that a list of words takes, besides that of the list itself. -/
def Roomy (options : Options) (words : List String) (peak : Nat) : Prop :=
  (∀ word ∈ words, size word ≤ peak) ∧ (options.duplicates = false → 64 * words.length ≤ peak)

private theorem takes_dropRepeats {made : List String} {peak : Nat}
    (hpeak : 64 * made.eraseDups.length ≤ peak) :
    Takes peak (dropRepeats made) (.ok made.eraseDups) := by
  rw [← Words.withoutRepeats_eq] at hpeak ⊢
  exact .bind (.grow hpeak) (.refl ..)

/-- No word is lost with the repeats. -/
theorem mem_kept_iff {duplicates : Bool} {made : List String} {word : String} :
    word ∈ Words.kept duplicates made ↔ word ∈ made := by
  cases duplicates with
  | true => exact Iff.rfl
  | false => exact List.mem_eraseDups

theorem takes_words {options : Options} {source last : σ} {made : List String} {peak : Nat}
    (hfits : Fits (Words.word (σ := σ) code options) (word code options))
    (hwords : options.words.toNat ≤ Words.maxWords)
    (hlength : made.length = options.words.toNat)
    (hmade : Words.Answers (Words.word code options) source made last)
    (hroomy : Roomy options (Words.kept options.duplicates made) peak) :
    Takes peak (words code options source) (.ok (Words.kept options.duplicates made, last)) := by
  obtain ⟨hsizes, hseen⟩ := hroomy
  have hcollect := takes_collect hfits hmade
    (fun text htext => hsizes text (mem_kept_iff.mpr htext)) #[]
  rw [hlength, Array.empty_append] at hcollect
  rw [words, reserve_of_le hwords, ok_bind]
  refine .bind hcollect ?_
  cases hduplicates : options.duplicates with
  | true => exact .refl ..
  | false =>
      rw [hduplicates] at hseen
      exact .bind (takes_dropRepeats (hseen rfl)) (.refl ..)

theorem takes_generate [LawfulDraw σ] {grammar : Grammar} {limit peak : Nat}
    (h : grammar.WrittenIn limit) (hpeak : 256 * (limit + 1) ≤ peak) {options : Options}
    {source : σ}
    (hroomy : ∀ words last, Words.generate grammar options source = (.ok words, last) →
      Roomy options words peak) :
    Takes peak (generate grammar options source)
      (outcome (Words.generate grammar options source)) := by
  rw [generate]
  cases hcheck : Words.checkSyllables options.syllables with
  | error e =>
      simp only [Words.generate, hcheck]
      exact .refl ..
  | ok checked =>
      have hvalid := Words.valid_of_checkSyllables hcheck
      rcases takes_compile h hpeak with hcompile | ⟨hcompile, hlarge⟩
      · rw [hcompile, ok_bind]
        cases hcode : grammar.compile with
        | error e =>
            simp only [Words.generate, hcheck, hcode]
            exact .refl ..
        | ok code =>
            rcases Nat.lt_or_ge Words.maxWords options.words.toNat with hmany | hwords
            · simp only [Words.generate, hcheck, hcode, words, reserve, if_pos hmany]
              exact .refl ..
            · obtain ⟨made, last, hlength, hmade⟩ :=
                Words.exists_answers (Words.word code options) options.words.toNat source
              have hplain := Words.generate_of_words hcode hvalid hwords hlength hmade
              -- code that has been measured can be run
              have hsize := size_of_compile (hcompile.trans (congrArg Except.ok hcode))
              have hrun : Fits (Machine.run (σ := σ) code) (run code) :=
                fits_run hsize (halts_of_compile hcode)
              have hmaking := takes_words (fits_word hrun hvalid) hwords hlength hmade
                (hroomy _ _ hplain)
              rw [hplain]
              exact .bind hmaking (.refl ..)
      · exact .inr ⟨by rw [hcompile]; rfl, hlarge⟩

end Checked

end Wordmill
