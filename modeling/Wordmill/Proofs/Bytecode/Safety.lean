import Wordmill.Proofs.Bytecode.Steps

/-!
# Running any bytes

Nothing of the layout of compiled code holds of arbitrary bytes: a step may lead
into an operand, into the middle of a character or past the end.  What is kept
all the same are bounds for the offset and for the returns, and each request to
the source is for one of the entries of a table whose count has been read.
-/

namespace Wordmill

namespace Operand

theorem decodeText_le {code : Bytecode} {offset length : Nat} {text : List Char}
    (h : decodeText code offset = some (text, length)) : offset + length ≤ code.size := by
  unfold decodeText at h
  split at h
  · contradiction
  · simp only at h
    split at h
    · rename_i hle
      cases h
      exact hle
    · contradiction

end Operand

namespace Machine

variable {σ : Type} [Draw σ] {code : Bytecode} {state next : State} {source after : σ}

/-! ## What a step can do -/

/-- There is a PICK whose table can be read and is not empty. -/
structure Picks (code : Bytecode) (state : State) (table count : Nat) : Prop where
  opcode : code[state.offset]? = some Opcode.pick.toByte
  address : Operand.decodeShort code (state.offset + 1) = some table
  count_eq : Operand.decodeShort code table = some count
  count_pos : 0 < count

/-- The steps that do not end a run, one for each opcode but HALT. -/
inductive Moves (code : Bytecode) (state : State) (source : σ) : State → σ → Prop
  | jump {target : Nat} : Operand.decodeShort code (state.offset + 1) = some target →
      Moves code state source { state with offset := target } source
  | put {text : List Char} {length : Nat} :
      Operand.decodeText code (state.offset + 1) = some (text, length) →
      Moves code state source
        ⟨state.offset + 1 + length, state.returns, text.foldl String.push state.output⟩ source
  | pick {table count target : Nat} : Picks code state table count →
      Operand.decodeShort code (table + 2 * (Draw.between 1 count source).1) = some target →
      Moves code state source { state with offset := target } (Draw.between 1 count source).2
  | call {target : Nat} : Operand.decodeShort code (state.offset + 1) = some target →
      state.returns.length < maxCalls →
      Moves code state source
        ⟨target, (state.offset + 1 + 2) :: state.returns, state.output⟩ source
  | ret {back : Nat} {returns : List Nat} : state.returns = back :: returns →
      Moves code state source ⟨back, returns, state.output⟩ source

/-- Every outcome of a step: it halts without a request, or it moves on, or it
halts behind a request because the entry that was drawn is not there. -/
inductive Outcome (code : Bytecode) (state : State) (source : σ) : Except Halt State × σ → Prop
  | halts (halt : Halt) : Outcome code state source (.error halt, source)
  | moves {next : State} {after : σ} : Moves code state source next after →
      Outcome code state source (.ok next, after)
  | breaks {table count : Nat} : Picks code state table count →
      Operand.decodeShort code (table + 2 * (Draw.between 1 count source).1) = none →
      Outcome code state source (.error .truncatedOperand, (Draw.between 1 count source).2)

private theorem outcome_pickFrom {table : Nat}
    (hopcode : code[state.offset]? = some Opcode.pick.toByte)
    (haddress : Operand.decodeShort code (state.offset + 1) = some table) :
    Outcome code state source (pickFrom code state table source) := by
  unfold pickFrom
  split
  · exact .halts _
  · exact .halts _
  · rename_i count hzero hcount
    have hpicks : Picks code state table count :=
      ⟨hopcode, haddress, hcount, Nat.pos_of_ne_zero hzero⟩
    simp only
    split
    · exact .breaks hpicks ‹_›
    · exact .moves (.pick hpicks ‹_›)

theorem outcome_step (code : Bytecode) (state : State) (source : σ) :
    Outcome code state source (step code state source) := by
  unfold step
  split
  · exact .halts _
  · rename_i byte hbyte
    simp only
    split
    · exact .halts _
    · exact .halts _
    · split
      · exact .halts _
      · exact .moves (.jump ‹_›)
    · split
      · exact .halts _
      · exact .moves (.put ‹_›)
    · rename_i hopcode
      split
      · exact .halts _
      · apply outcome_pickFrom
        · rw [hbyte, Opcode.toByte_of_ofByte? hopcode]
        · assumption
    · split
      · exact .halts _
      · split
        · exact .moves (.call ‹_› ‹_›)
        · exact .halts _
    · split
      · exact .halts _
      · exact .moves (.ret ‹_›)

theorem moves_of_step (h : step code state source = (.ok next, after)) :
    Moves code state source next after := by
  have houtcome := outcome_step code state source
  rw [h] at houtcome
  cases houtcome with
  | moves hmoves => exact hmoves

/-- A step leaves the source alone or asks it once, for an entry of the table of a PICK. -/
theorem source_step (code : Bytecode) (state : State) (source : σ) :
    (step code state source).2 = source ∨
      ∃ table count, Picks code state table count ∧
        (step code state source).2 = (Draw.between 1 count source).2 := by
  have houtcome := outcome_step code state source
  generalize step code state source = outcome at houtcome
  cases houtcome with
  | halts halt => exact .inl rfl
  | moves hmoves =>
      cases hmoves with
      | jump | put | call | ret => exact .inl rfl
      | pick hpicks _ => exact .inr ⟨_, _, hpicks, rfl⟩
  | breaks hpicks _ => exact .inr ⟨_, _, hpicks, rfl⟩

/-! ## Bounds -/

theorem Picks.bounds {table count : Nat} (h : Picks code state table count) :
    table ≤ 0xFFFF ∧ table + 2 ≤ code.size ∧ 1 ≤ count ∧ count ≤ 0xFFFF := by
  have haddress := Operand.decodeShort_lt h.address
  have hcount := Operand.decodeShort_lt h.count_eq
  have hpos := h.count_pos
  omega

/-- What is kept of the offset and of the returns. -/
structure Bounded (code : Bytecode) (state : State) : Prop where
  offset_le : state.offset ≤ max code.size 0xFFFF
  length_returns_le : state.returns.length ≤ maxCalls
  returns_bounds : ∀ back ∈ state.returns, 3 ≤ back ∧ back ≤ code.size

theorem bounded_initial (code : Bytecode) : Bounded code initial where
  offset_le := Nat.zero_le _
  length_returns_le := Nat.zero_le _
  returns_bounds := by simp [initial]

/-- An operand is a place that the offset may be at. -/
theorem le_max_of_decodeShort {offset target : Nat}
    (h : Operand.decodeShort code offset = some target) : target ≤ max code.size 0xFFFF := by
  have := Operand.decodeShort_lt h
  omega

theorem Bounded.moves (h : Bounded code state) (hmoves : Moves code state source next after) :
    Bounded code next := by
  cases hmoves with
  | jump haddress => exact { h with offset_le := le_max_of_decodeShort haddress }
  | put htext =>
      have hle := Operand.decodeText_le htext
      exact { h with offset_le := Nat.le_trans hle (Nat.le_max_left ..) }
  | pick _ hentry => exact { h with offset_le := le_max_of_decodeShort hentry }
  | call haddress hroom =>
      refine ⟨le_max_of_decodeShort haddress, hroom, ?_⟩
      intro back hback
      rcases List.mem_cons.mp hback with rfl | hback
      · have := Operand.decodeShort_lt haddress
        omega
      · exact h.returns_bounds back hback
  | ret hreturns =>
      obtain ⟨-, hlength, hbounds⟩ := h
      rw [hreturns] at hlength hbounds
      have hback := hbounds _ List.mem_cons_self
      refine ⟨Nat.le_trans hback.2 (Nat.le_max_left ..), ?_, ?_⟩
      · exact Nat.le_of_succ_le hlength
      · exact fun back hmem => hbounds back (List.mem_cons_of_mem _ hmem)

theorem bounded_of_reachable {start : σ} (h : Reachable code start state source) :
    Bounded code state := by
  apply h.invariant (fun state _ => Bounded code state) (bounded_initial code)
  intro state next source after hbounded hstep
  exact hbounded.moves (moves_of_step hstep)

/-! ## Output -/

theorem toList_foldl_push (text : List Char) (output : String) :
    (text.foldl String.push output).toList = output.toList ++ text := by
  induction text generalizing output with
  | nil => simp
  | cons c text ih => simp [ih]

theorem Moves.extends_output (h : Moves code state source next after) :
    state.output.toList <+: next.output.toList := by
  cases h with
  | jump | pick | call | ret => exact List.prefix_rfl
  | put =>
      simp only [toList_foldl_push]
      exact List.prefix_append _ _

/-- What has been written is never taken back. -/
theorem Steps.extends_output {n : Nat} (h : Steps code n state source next after) :
    state.output.toList <+: next.output.toList := by
  apply h.invariant (fun later _ => state.output.toList <+: later.output.toList)
  · intro later next source after hprefix hstep
    exact hprefix.trans (moves_of_step hstep).extends_output
  · exact List.prefix_rfl

/-! ## Requests -/

/-- Requests are for one of the entries of a table, which has at least one. -/
def WithinTables (recorded : Recorded σ) : Prop :=
  ∀ request ∈ recorded.requests, request.1 = 1 ∧ 1 ≤ request.2 ∧ request.2 ≤ 0xFFFF

theorem WithinTables.between {count : Nat} {recorded : Recorded σ} (h : WithinTables recorded)
    (hpos : 1 ≤ count) (hle : count ≤ 0xFFFF) :
    WithinTables (Draw.between 1 count recorded).2 := by
  intro request hrequest
  rw [Recorded.between_eq] at hrequest
  rcases Array.mem_push.mp hrequest with hrequest | rfl
  · exact h request hrequest
  · exact ⟨rfl, hpos, hle⟩

theorem WithinTables.step {recorded : Recorded σ} (h : WithinTables recorded)
    (code : Bytecode) (state : State) : WithinTables (step code state recorded).2 := by
  rcases source_step code state recorded with hsame | ⟨table, count, hpicks, hdrawn⟩
  · rw [hsame]
    exact h
  · rw [hdrawn]
    obtain ⟨-, -, hpos, hle⟩ := hpicks.bounds
    exact h.between hpos hle

theorem withinTables_of_reachable {now : Recorded σ} {start : σ}
    (h : Reachable code (Recorded.ofSource start) state now) : WithinTables now := by
  apply h.invariant (fun _ now => WithinTables now)
  · intro request hrequest
    simp [Recorded.ofSource] at hrequest
  · intro state next now after hwithin hstep
    have := hwithin.step code state
    rwa [hstep] at this

end Machine

end Wordmill
