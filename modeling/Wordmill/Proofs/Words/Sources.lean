import Wordmill.Words

/-!
# Making words from related sources

What is made depends on a source only through its answers, and a source is only
ever asked for a number between bounds that are in order.  So sources that
answer alike, and stay alike as they are asked, make the same words.
-/

namespace Wordmill

variable {σ τ : Type} [Draw σ] [Draw τ]

/-- Related sources answer alike as long as the bounds are in order, and stay related. -/
structure Simulates (related : σ → τ → Prop) : Prop where
  answer {low high : Nat} {source : σ} {other : τ} : related source other → low ≤ high →
    (Draw.between low high source).1 = (Draw.between low high other).1
  next {low high : Nat} {source : σ} {other : τ} : related source other → low ≤ high →
    related (Draw.between low high source).2 (Draw.between low high other).2

/-- The same result, and related sources behind it. -/
def Agrees {α : Type} (related : σ → τ → Prop) (first : α × σ) (second : α × τ) : Prop :=
  first.1 = second.1 ∧ related first.2 second.2

variable {related : σ → τ → Prop} {source : σ} {other : τ}

theorem Simulates.between (hsim : Simulates related) (h : related source other) {low high : Nat}
    (hle : low ≤ high) :
    Agrees related (Draw.between low high source) (Draw.between low high other) :=
  ⟨hsim.answer h hle, hsim.next h hle⟩

namespace Machine

private theorem agrees_pickFrom (hsim : Simulates related) (h : related source other)
    (code : Bytecode) (state : State) (table : Nat) :
    Agrees related (pickFrom code state table source) (pickFrom code state table other) := by
  unfold pickFrom
  match Operand.decodeShort code table with
  | none => exact ⟨rfl, h⟩
  | some 0 => exact ⟨rfl, h⟩
  | some (others + 1) =>
      obtain ⟨hanswer, hnext⟩ := hsim.between h (Nat.le_add_left 1 others)
      simp only [hanswer]
      cases Operand.decodeShort code (table + 2 * (Draw.between 1 (others + 1) other).1) with
      | none => exact ⟨rfl, hnext⟩
      | some target => exact ⟨rfl, hnext⟩

private theorem agrees_step (hsim : Simulates related) (h : related source other) (code : Bytecode)
    (state : State) : Agrees related (step code state source) (step code state other) := by
  unfold step
  cases code[state.offset]? with
  | none => exact ⟨rfl, h⟩
  | some byte =>
      simp only
      match Opcode.ofByte? byte with
      | none | some .halt => exact ⟨rfl, h⟩
      | some .jump =>
          cases Operand.decodeShort code (state.offset + 1) <;> exact ⟨rfl, h⟩
      | some .put =>
          cases Operand.decodeText code (state.offset + 1) <;> exact ⟨rfl, h⟩
      | some .pick =>
          cases Operand.decodeShort code (state.offset + 1) with
          | none => exact ⟨rfl, h⟩
          | some table => exact agrees_pickFrom hsim h code state table
      | some .call =>
          cases Operand.decodeShort code (state.offset + 1) with
          | none => exact ⟨rfl, h⟩
          | some target =>
              by_cases hroom : state.returns.length < maxCalls
              · simp only [if_pos hroom]
                exact ⟨rfl, h⟩
              · simp only [if_neg hroom]
                exact ⟨rfl, h⟩
      | some .ret =>
          cases state.returns <;> exact ⟨rfl, h⟩

private theorem agrees_runFrom (hsim : Simulates related) (h : related source other)
    (code : Bytecode) (fuel : Nat) (state : State) :
    (runFrom code fuel state source).halt = (runFrom code fuel state other).halt ∧
      (runFrom code fuel state source).state = (runFrom code fuel state other).state ∧
      related (runFrom code fuel state source).source (runFrom code fuel state other).source := by
  induction fuel generalizing state source other with
  | zero => exact ⟨rfl, rfl, h⟩
  | succ fuel ih =>
      have hstep := agrees_step hsim h code state
      simp only [runFrom]
      cases hfirst : step code state source with
      | mk outcome after =>
          cases hsecond : step code state other with
          | mk otherOutcome otherAfter =>
              rw [hfirst, hsecond] at hstep
              obtain ⟨rfl, hafter⟩ : outcome = otherOutcome ∧ related after otherAfter := hstep
              cases outcome with
              | error halt => exact ⟨rfl, rfl, hafter⟩
              | ok next => exact ih hafter next

private theorem agrees_run (hsim : Simulates related) (h : related source other) (code : Bytecode) :
    Agrees related (run code source) (run code other) := by
  obtain ⟨-, hstate, hsource⟩ := agrees_runFrom hsim h code (stepBudget code) initial
  simp only [run, hstate, Agrees, true_and]
  exact hsource

end Machine

namespace Words

omit [Draw σ] [Draw τ] in
theorem agrees_collect {α : Type} {next : σ → α × σ} {otherNext : τ → α × τ}
    (hnext : ∀ source other, related source other → Agrees related (next source) (otherNext other))
    (h : related source other) (n : Nat) (answers : Array α) :
    Agrees related (collect next n source answers) (collect otherNext n other answers) := by
  induction n generalizing source other answers with
  | zero => exact ⟨rfl, h⟩
  | succ n ih =>
      obtain ⟨hanswer, hafter⟩ := hnext source other h
      simp only [collect, hanswer]
      exact ih hafter _

private theorem agrees_count (hsim : Simulates related) (h : related source other)
    {syllables : Syllables} (hcheck : checkSyllables syllables = .ok ()) :
    Agrees related (count syllables source) (count syllables other) := by
  cases syllables with
  | fixed n => exact ⟨rfl, h⟩
  | range least greatest =>
      simp only [checkSyllables] at hcheck
      split at hcheck
      · contradiction
      · rename_i hle
        exact hsim.between h (UInt32.le_iff_toNat_le.mp (UInt32.not_lt.mp hle))

theorem agrees_word (hsim : Simulates related) (h : related source other) (code : Bytecode)
    {options : Options} (hcheck : checkSyllables options.syllables = .ok ()) :
    Agrees related (word code options source) (word code options other) := by
  obtain ⟨hcount, hafter⟩ := agrees_count hsim h hcheck
  obtain ⟨hsyllables, hlast⟩ := agrees_collect
    (fun source other h => Machine.agrees_run hsim h code) hafter
    (count options.syllables other).1 #[]
  simp only [word, hcount, hsyllables, Agrees, true_and]
  exact hlast

private theorem agrees_generate (hsim : Simulates related) (h : related source other)
    (grammar : Grammar) (options : Options) :
    Agrees related (generate grammar options source) (generate grammar options other) := by
  unfold generate
  cases hcheck : checkSyllables options.syllables with
  | error e => exact ⟨rfl, h⟩
  | ok checked =>
      simp only
      cases grammar.compile with
      | error e => exact ⟨rfl, h⟩
      | ok code =>
          simp only
          split
          · exact ⟨rfl, h⟩
          · obtain ⟨hwords, hlast⟩ := agrees_collect
              (fun source other h => agrees_word hsim h code hcheck) h options.words.toNat #[]
            simp only [hwords, Agrees, true_and]
            exact hlast

end Words

theorem agrees_produce (hsim : Simulates related) (h : related source other) (grammar : Grammar)
    (options : Options) (bytecodeOnly : Bool) :
    Agrees related (grammar.produce options bytecodeOnly source)
      (grammar.produce options bytecodeOnly other) := by
  unfold Grammar.produce
  cases bytecodeOnly with
  | true => exact ⟨rfl, h⟩
  | false =>
      obtain ⟨hresult, hlast⟩ := Words.agrees_generate hsim h grammar options
      generalize Words.generate grammar options source = first at hresult hlast
      generalize Words.generate grammar options other = second at hresult hlast
      obtain ⟨result, after⟩ := first
      obtain ⟨otherResult, otherAfter⟩ := second
      obtain rfl : result = otherResult := hresult
      cases result <;> exact ⟨rfl, hlast⟩

/-! ## Recording -/

/-- The bounds of every request are in order. -/
def Recorded.InOrder (recorded : Recorded σ) : Prop :=
  ∀ request ∈ recorded.requests, request.1 ≤ request.2

/-- To record the requests changes nothing, and only requests with bounds in order are made. -/
theorem simulates_recorded :
    Simulates fun (recorded : Recorded σ) (source : σ) =>
      recorded.source = source ∧ recorded.InOrder where
  answer := by
    rintro low high recorded source ⟨rfl, -⟩ -
    rfl
  next := by
    rintro low high recorded source ⟨rfl, hinOrder⟩ hle
    refine ⟨rfl, ?_⟩
    intro request hrequest
    rw [Recorded.between_eq] at hrequest
    rcases Array.mem_push.mp hrequest with hrequest | rfl
    · exact hinOrder request hrequest
    · exact hle

omit [Draw σ] in
theorem inOrder_ofSource (source : σ) : (Recorded.ofSource source).InOrder := by
  intro request hrequest
  simp [Recorded.ofSource] at hrequest

end Wordmill
