import Mathlib.Data.List.Nodup
import Wordmill.Draw.Script
import Wordmill.Proofs.Grammar.Scopes
import Wordmill.Proofs.Words.Sources

/-!
# Words under different options

The words are made one after another out of syllables, and only then does it
matter what stands between the syllables and whether a word comes twice.  So the
options that do not say what to draw make no difference to what is drawn, and
more words begin like fewer.
-/

namespace Wordmill

/-- How many syllables a word may have. -/
def Syllables.Allows : Syllables → Nat → Prop
  | .fixed count, n => n = count.toNat
  | .range least greatest, n => least.toNat ≤ n ∧ n ≤ greatest.toNat

def Syllables.Valid : Syllables → Prop
  | .fixed _ => True
  | .range least greatest => least ≤ greatest

namespace Words

/-! ## Answers one after another -/

section

variable {σ α β : Type}

/-- The answers to calls of `next` one after another, and the source that they leave. -/
inductive Answers (next : σ → α × σ) : σ → List α → σ → Prop
  | nil (source : σ) : Answers next source [] source
  | cons {source last : σ} {answers : List α} : Answers next (next source).2 answers last →
      Answers next source ((next source).1 :: answers) last

variable {next : σ → α × σ} {source last : σ} {answers first second : List α}

theorem exists_answers (next : σ → α × σ) (n : Nat) (source : σ) :
    ∃ answers last, answers.length = n ∧ Answers next source answers last := by
  induction n generalizing source with
  | zero => exact ⟨[], source, List.length_nil, .nil source⟩
  | succ n ih =>
      obtain ⟨answers, last, hlength, hanswers⟩ := ih (next source).2
      exact ⟨(next source).1 :: answers, last, congrArg (· + 1) hlength, .cons hanswers⟩

theorem collect_of_answers (h : Answers next source answers last) (before : Array α) :
    collect next answers.length source before = (before ++ answers.toArray, last) := by
  induction h generalizing before with
  | nil source => simp [collect]
  | cons _ ih => simp [collect, ih]

private theorem answers_append_iff :
    Answers next source (first ++ second) last ↔
      ∃ middle, Answers next source first middle ∧ Answers next middle second last := by
  constructor
  · intro h
    induction first generalizing source with
    | nil => exact ⟨source, .nil source, h⟩
    | cons answer first ih =>
        cases h with
        | cons h =>
            obtain ⟨middle, hfirst, hsecond⟩ := ih h
            exact ⟨middle, .cons hfirst, hsecond⟩
  · rintro ⟨middle, hfirst, hsecond⟩
    induction hfirst with
    | nil => exact hsecond
    | cons _ ih => exact .cons (ih hsecond)

theorem Answers.map {render : α → β} {other : σ → β × σ}
    (hother : ∀ source, other source = (render (next source).1, (next source).2))
    (h : Answers next source answers last) : Answers other source (answers.map render) last := by
  induction h with
  | nil source => exact .nil source
  | @cons source last answers _ ih =>
      have hcons : Answers other source ((other source).1 :: answers.map render) last :=
        .cons (by rwa [hother])
      rwa [hother] at hcons

/-- What every call keeps in order, all calls keep. -/
theorem Answers.grows {γ : Type} (history : σ → List γ)
    (hnext : ∀ source, history source <+: history (next source).2)
    (h : Answers next source answers last) : history source <+: history last := by
  induction h with
  | nil => exact List.prefix_rfl
  | @cons source _ _ _ ih => exact (hnext source).trans ih

end

/-! ## Repeated words -/

private theorem eraseDups_eq_self {words : List String} (h : words.Nodup) :
    words.eraseDups = words := by
  induction words with
  | nil => rfl
  | cons word words ih =>
      obtain ⟨hword, hwords⟩ := List.nodup_cons.mp h
      have hothers : words.filter (fun other => !other == word) = words := by
        rw [List.filter_eq_self]
        intro other hother
        simpa using ne_of_mem_of_not_mem hother hword
      rw [List.eraseDups_cons, hothers, ih hwords]

private theorem prefix_eraseDups {words more : List String} (h : words <+: more) :
    words.eraseDups <+: more.eraseDups := by
  obtain ⟨others, rfl⟩ := h
  rw [List.eraseDups_append]
  exact List.prefix_append _ _

private theorem eraseDups_append_cons {kept : List String} {word : String} (h : word ∈ kept)
    (words : List String) : (kept ++ word :: words).eraseDups = (kept ++ words).eraseDups := by
  rw [List.eraseDups_append, List.eraseDups_append]
  simp [List.removeAll, h]

/-- The words seen are the words kept, so nothing is kept twice. -/
theorem foldl_kept (words : List String) {seen : Std.HashSet String} {kept : Array String}
    (hseen : ∀ word, word ∈ seen ↔ word ∈ kept) (hkept : kept.toList.Nodup) :
    let result := (words.foldl (fun (seen, kept) word =>
      if seen.contains word then (seen, kept) else (seen.insert word, kept.push word))
        (seen, kept)).2
    result.toList = (kept.toList ++ words).eraseDups ∧ result.toList.Nodup := by
  induction words generalizing seen kept with
  | nil => simpa [eraseDups_eq_self hkept] using hkept
  | cons word words ih =>
      simp only [List.foldl_cons]
      split
      · rename_i hword
        have hmem : word ∈ kept := (hseen word).mp (Std.HashSet.mem_iff_contains.mpr hword)
        rw [eraseDups_append_cons (Array.mem_toList_iff.mpr hmem)]
        exact ih hseen hkept
      · rename_i hword
        have hnew : word ∉ kept := fun hmem =>
          hword (Std.HashSet.mem_iff_contains.mp ((hseen word).mpr hmem))
        have hpushed : (kept.push word).toList.Nodup := by
          rw [Array.toList_push, ← List.concat_eq_append]
          exact hkept.concat fun hmem => hnew (Array.mem_toList_iff.mp hmem)
        have hinserted : ∀ other, other ∈ seen.insert word ↔ other ∈ kept.push word := by
          intro other
          rw [Std.HashSet.mem_insert, Array.mem_push, hseen, beq_iff_eq, or_comm, eq_comm]
        simpa using ih hinserted hpushed

theorem withoutRepeats_eq (words : List String) : withoutRepeats words = words.eraseDups :=
  (foldl_kept words (by simp) (by simp)).1

private theorem nodup_eraseDups (words : List String) : words.eraseDups.Nodup := by
  rw [← withoutRepeats_eq]
  exact (foldl_kept words (by simp) (by simp)).2

/-! ## Drafts -/

section

variable {σ : Type} [Draw σ]

/-- The syllables of one word. -/
def draft (code : Bytecode) (syllables : Syllables) (source : σ) : List String × σ :=
  let (count, source) := count syllables source
  let (made, source) := collect (Machine.run code) count source #[]
  (made.toList, source)

theorem word_eq_draft (code : Bytecode) (options : Options) (source : σ) :
    word code options source =
      (options.separator.intercalate (draft code options.syllables source).1,
        (draft code options.syllables source).2) := rfl

theorem answers_draft (code : Bytecode) (syllables : Syllables) (source : σ) :
    Answers (Machine.run code) (count syllables source).2 (draft code syllables source).1
        (draft code syllables source).2 ∧
      (draft code syllables source).1.length = (count syllables source).1 := by
  obtain ⟨made, last, hlength, hmade⟩ := exists_answers (Machine.run code)
    (count syllables source).1 (count syllables source).2
  have hdraft : draft code syllables source = (made, last) := by
    have hcollect := collect_of_answers hmade #[]
    rw [hlength] at hcollect
    simp [draft, hcollect]
  rw [hdraft]
  exact ⟨hmade, hlength⟩

theorem checkSyllables_eq_ok {syllables : Syllables} (h : syllables.Valid) :
    checkSyllables syllables = .ok () := by
  cases syllables with
  | fixed count => rfl
  | range least greatest => exact if_neg (UInt32.not_lt.mpr h)

theorem valid_of_checkSyllables {syllables : Syllables}
    (h : checkSyllables syllables = .ok ()) : syllables.Valid := by
  cases syllables with
  | fixed count => trivial
  | range least greatest =>
      simp only [checkSyllables] at h
      split at h
      · contradiction
      · rename_i hle
        exact UInt32.not_lt.mp hle

theorem allows_count [LawfulDraw σ] {syllables : Syllables} (h : syllables.Valid) (source : σ) :
    syllables.Allows (count syllables source).1 := by
  cases syllables with
  | fixed count => rfl
  | range least greatest =>
      have hle : least.toNat ≤ greatest.toNat := UInt32.le_iff_toNat_le.mp h
      exact ⟨LawfulDraw.low_le _ _ source hle, LawfulDraw.le_high _ _ source hle⟩

private theorem made_of_mem_drafts [LawfulDraw σ] {code : Bytecode} {syllables : Syllables}
    (hvalid : syllables.Valid) {source last : σ} {drafts : List (List String)}
    (h : Answers (draft code syllables) source drafts last) :
    ∀ draft ∈ drafts, syllables.Allows draft.length ∧
      ∃ before after : σ, Answers (Machine.run code) before draft after := by
  induction h with
  | nil source => simp
  | @cons source last drafts _ ih =>
      intro made hmade
      rcases List.mem_cons.mp hmade with rfl | hmade
      · obtain ⟨hanswers, hlength⟩ := answers_draft code syllables source
        exact ⟨hlength ▸ allows_count hvalid source, _, _, hanswers⟩
      · exact ih made hmade

/-- What becomes of the words in the end. -/
def kept (duplicates : Bool) (words : List String) : List String :=
  if duplicates then words else words.eraseDups

private theorem prefix_kept (duplicates : Bool) {words more : List String} (h : words <+: more) :
    kept duplicates words <+: kept duplicates more := by
  cases duplicates with
  | true => exact h
  | false => exact prefix_eraseDups h

theorem generate_of_words {grammar : Grammar} {code : Bytecode}
    (hcode : grammar.compile = .ok code) {options : Options} (hvalid : options.syllables.Valid)
    (hroom : options.words.toNat ≤ maxWords) {source last : σ} {made : List String}
    (hlength : made.length = options.words.toNat)
    (h : Answers (word code options) source made last) :
    generate grammar options source = (.ok (kept options.duplicates made), last) := by
  have hcollect := collect_of_answers h #[]
  rw [hlength] at hcollect
  simp only [generate, checkSyllables_eq_ok hvalid, hcode, if_neg (Nat.not_lt.mpr hroom), hcollect,
    withoutRepeats_eq, kept]
  simp

theorem generate_of_answers {grammar : Grammar} {code : Bytecode}
    (hcode : grammar.compile = .ok code) {words : UInt64} (hroom : words.toNat ≤ maxWords)
    {syllables : Syllables} (hvalid : syllables.Valid) {source last : σ}
    {drafts : List (List String)} (hlength : drafts.length = words.toNat)
    (h : Answers (draft code syllables) source drafts last) (separator : String)
    (duplicates : Bool) :
    generate grammar ⟨words, syllables, separator, duplicates⟩ source =
      (.ok (kept duplicates (drafts.map separator.intercalate)), last) := by
  have hwords : Answers (word code ⟨words, syllables, separator, duplicates⟩) source
      (drafts.map separator.intercalate) last := h.map (word_eq_draft code _)
  exact generate_of_words hcode hvalid hroom (by rw [List.length_map, hlength]) hwords

/-! ## What comes of a call -/

/--
The first check that fails decides the error.  Behind the checks there is code, or
there are words, or there is a panic because no list can be that long.
-/
theorem produce_cases (grammar : Grammar) (options : Options) (bytecodeOnly : Bool) (source : σ) :
    (∃ e, grammar.produce options bytecodeOnly source = (.error (.error e), source) ∧
      (bytecodeOnly = false ∧ checkSyllables options.syllables = .error e ∨
        (bytecodeOnly = true ∨ options.syllables.Valid) ∧ grammar.compile = .error e)) ∨
    ∃ code, grammar.compile = .ok code ∧
      (bytecodeOnly = true ∧
          grammar.produce options bytecodeOnly source = (.ok (.bytecode code), source) ∨
        bytecodeOnly = false ∧ options.syllables.Valid ∧
          (maxWords < options.words.toNat ∧
              grammar.produce options bytecodeOnly source = (.error .panic, source) ∨
            options.words.toNat ≤ maxWords ∧ ∃ words last,
              grammar.produce options bytecodeOnly source = (.ok (.words words), last))) := by
  unfold Grammar.produce generate
  cases bytecodeOnly with
  | true =>
      cases hcode : grammar.compile with
      | error e => exact .inl ⟨e, by simp, .inr ⟨.inl rfl, rfl⟩⟩
      | ok code => exact .inr ⟨code, rfl, .inl ⟨rfl, by simp⟩⟩
  | false =>
      cases hcheck : checkSyllables options.syllables with
      | error e => exact .inl ⟨e, by simp, .inl ⟨rfl, rfl⟩⟩
      | ok =>
          have hvalid := valid_of_checkSyllables hcheck
          cases hcode : grammar.compile with
          | error e => exact .inl ⟨e, by simp, .inr ⟨.inr hvalid, rfl⟩⟩
          | ok code =>
              refine .inr ⟨code, rfl, .inr ⟨rfl, hvalid, ?_⟩⟩
              rcases Nat.lt_or_ge maxWords options.words.toNat with hlarge | hwords
              · exact .inl ⟨hlarge, by simp [hlarge]⟩
              · exact .inr ⟨hwords, by simp [if_neg (Nat.not_lt.mpr hwords)]⟩

theorem produce_eq_panic_iff (grammar : Grammar) (options : Options) (bytecodeOnly : Bool)
    (source : σ) :
    (grammar.produce options bytecodeOnly source).1 = .error .panic ↔
      bytecodeOnly = false ∧ options.syllables.Valid ∧ (∃ code, grammar.compile = .ok code) ∧
        maxWords < options.words.toNat := by
  rcases produce_cases grammar options bytecodeOnly source with ⟨e, hmade, hfound⟩ |
    ⟨code, hcode, ⟨rfl, hmade⟩ | ⟨rfl, hvalid, ⟨hlarge, hmade⟩ | ⟨hwords, made, last, hmade⟩⟩⟩
  · rw [hmade]
    refine ⟨nofun, ?_⟩
    rintro ⟨rfl, hvalid, ⟨code, hcode⟩, -⟩
    rcases hfound with ⟨-, hcheck⟩ | ⟨-, herror⟩
    · exact absurd ((checkSyllables_eq_ok hvalid).symm.trans hcheck) nofun
    · exact absurd (hcode.symm.trans herror) nofun
  · simp [hmade]
  · simp [hmade, hvalid, hcode, hlarge]
  · simp [hmade, Nat.not_lt.mpr hwords]

end

/-! ## Requests -/

section

variable {σ : Type} [Draw σ]

/-- Earlier requests stay, and make no difference. -/
theorem simulates_earlier (earlier : Array (Nat × Nat)) :
    Simulates fun (recorded other : Recorded σ) =>
      recorded.source = other.source ∧ recorded.requests = earlier ++ other.requests where
  answer := by
    rintro low high recorded other ⟨hsource, -⟩ -
    rw [Recorded.between_eq, Recorded.between_eq, hsource]
  next := by
    rintro low high recorded other ⟨hsource, hrequests⟩ -
    rw [Recorded.between_eq, Recorded.between_eq, hsource, hrequests]
    simp

private theorem requests_draft {syllables : Syllables} (hvalid : syllables.Valid) (code : Bytecode)
    (recorded : Recorded σ) :
    recorded.requests.toList <+: (draft code syllables recorded).2.requests.toList := by
  have hstart : recorded.source = (Recorded.ofSource recorded.source).source ∧
      recorded.requests = recorded.requests ++ (Recorded.ofSource recorded.source).requests :=
    ⟨rfl, Array.append_empty.symm⟩
  have hcheck : checkSyllables (Options.mk 0 syllables "" true).syllables = .ok () :=
    checkSyllables_eq_ok hvalid
  have hword := agrees_word (simulates_earlier recorded.requests) hstart code hcheck
  rw [word_eq_draft, word_eq_draft] at hword
  rw [hword.2.2, Array.toList_append]
  exact List.prefix_append _ _

/--
The drafts of the words and the requests made for them depend on neither the
separator nor on what is done with repeated words: every word is a draft with
the separator in it, and without repetitions the first of equal words is kept.
Fewer words are the first of more, and so are the requests made for them.
-/
theorem generate_across_options [LawfulDraw σ] {grammar : Grammar} {code : Bytecode}
    (hcode : grammar.compile = .ok code) {options : Options} (hvalid : options.syllables.Valid)
    (hroom : options.words.toNat ≤ maxWords) (source : σ) :
    ∃ drafts last,
      Answers (draft code options.syllables) (Recorded.ofSource source) drafts last ∧
      drafts.length = options.words.toNat ∧
      (∀ made ∈ drafts, options.syllables.Allows made.length ∧
        ∃ before after : Recorded σ, Answers (Machine.run code) before made after) ∧
      (∀ separator, generate grammar
          { options with separator := separator, duplicates := true } (Recorded.ofSource source) =
        (.ok (drafts.map separator.intercalate), last)) ∧
      (∀ separator, generate grammar
          { options with separator := separator, duplicates := false } (Recorded.ofSource source) =
        (.ok (drafts.map separator.intercalate).eraseDups, last) ∧
          (drafts.map separator.intercalate).eraseDups.Nodup) ∧
      ∀ fewer ≤ options.words, ∃ words firstWords middle,
        generate grammar options (Recorded.ofSource source) = (.ok words, last) ∧
        generate grammar { options with words := fewer } (Recorded.ofSource source) =
          (.ok firstWords, middle) ∧
        firstWords <+: words ∧ middle.requests.toList <+: last.requests.toList := by
  obtain ⟨drafts, last, hlength, hdrafts⟩ :=
    exists_answers (draft code options.syllables) options.words.toNat (Recorded.ofSource source)
  have hgenerate := generate_of_answers hcode hroom hvalid hlength hdrafts
  refine ⟨drafts, last, hdrafts, hlength, made_of_mem_drafts hvalid hdrafts,
    fun separator => hgenerate separator true,
    fun separator => ⟨hgenerate separator false, nodup_eraseDups _⟩, ?_⟩
  intro fewer hfewer
  have hle : fewer.toNat ≤ options.words.toNat := UInt64.le_iff_toNat_le.mp hfewer
  -- the words that are asked for first end where the others begin
  rw [← List.take_append_drop fewer.toNat drafts, answers_append_iff] at hdrafts
  obtain ⟨middle, hfirst, hothers⟩ := hdrafts
  have hfirstLength : (drafts.take fewer.toNat).length = fewer.toNat :=
    List.length_take_of_le (hlength ▸ hle)
  have hfirstWords := generate_of_answers hcode (Nat.le_trans hle hroom) hvalid hfirstLength hfirst
    options.separator options.duplicates
  refine ⟨_, _, middle, hgenerate options.separator options.duplicates, hfirstWords, ?_, ?_⟩
  · rw [List.map_take]
    exact prefix_kept _ <| List.take_prefix _ _
  · exact hothers.grows (·.requests.toList) (requests_draft hvalid code)

end

/-! Three words of a text that never changes, with one to three syllables. -/

def plainText : Grammar := .mk ['b', 'a'] []

def threeWords : Options := ⟨3, .range 1 3, "-", true⟩

theorem generate_plainText :
    ∃ code last middle firstWords, plainText.compile = .ok code ∧ threeWords.syllables.Valid ∧
      threeWords.words.toNat ≤ maxWords ∧
      generate plainText threeWords (Recorded.ofSource (Script.mk [2, 1] .low)) =
        (.ok ["ba-ba", "ba", "ba"], last) ∧
      generate plainText { threeWords with duplicates := false }
          (Recorded.ofSource (Script.mk [2, 1] .low)) = (.ok ["ba-ba", "ba"], last) ∧
      generate plainText { threeWords with words := 2 }
          (Recorded.ofSource (Script.mk [2, 1] .low)) = (.ok firstWords, middle) ∧
      firstWords <+: ["ba-ba", "ba", "ba"] ∧
      middle.requests.toList <+: [(1, 3), (1, 3), (1, 3)] := by
  have hroot : Pattern.parse ['b', 'a'] = .ok (.sequence [.text ['b', 'a']]) := by rfl
  have hfault : compileFault [] (.sequence [.text ['b', 'a']]) = none :=
    (compileFault_nil _).trans (by rfl)
  have hcode : plainText.compile = _ := Grammar.compile_root hroot hfault
  have hvalid : threeWords.syllables.Valid := by
    unfold threeWords Syllables.Valid
    decide
  have hroom : threeWords.words.toNat ≤ maxWords := by decide
  have hmade : generate plainText threeWords (Recorded.ofSource (Script.mk [2, 1] .low)) =
      (.ok ["ba-ba", "ba", "ba"], ⟨⟨[], .low⟩, #[(1, 3), (1, 3), (1, 3)]⟩) :=
    (generate_root hroot hfault (checkSyllables_eq_ok hvalid) hroom _).trans (by rfl)
  obtain ⟨drafts, last, -, -, -, hkept, hdropped, hfewer⟩ :=
    generate_across_options hcode hvalid hroom (Script.mk [2, 1] .low)
  obtain ⟨words, firstWords, middle, hwords, hfirst, hbegin, hrequests⟩ := hfewer 2 (by decide)
  obtain ⟨hdrafts, rfl⟩ := Prod.mk.inj ((hkept "-").symm.trans hmade)
  obtain ⟨hsame, -⟩ := Prod.mk.inj (hwords.symm.trans hmade)
  have hdrop := (hdropped "-").1
  rw [Except.ok.inj hdrafts] at hdrop
  rw [Except.ok.inj hsame] at hbegin
  exact ⟨_, _, middle, firstWords, hcode, hvalid, hroom, hmade, hdrop, hfirst, hbegin, hrequests⟩

end Words

end Wordmill
