import Wordmill.Draw.Script
import Wordmill.Proofs.Bytecode.Safety

/-!
# Words of 64 bits

The machine with every sum, index and range checked, as it runs on words of a
fixed size: one that does not fit is a fault and not a larger number.  No fault
is ever met, so that nothing is lost by reckoning with whole numbers.
-/

namespace Wordmill

namespace Checked

/-- What goes wrong where an operation on words has no result. -/
inductive Fault where
  | overflow
  | outOfRange
  | emptyRange
  deriving DecidableEq, Repr

def wordLimit : Nat := Nat.pow 2 64

/-- No buffer is longer. -/
def maxBytes : Nat := Nat.pow 2 63 - 1

def add (m n : Nat) : Except Fault Nat :=
  if m + n < wordLimit then .ok (m + n) else .error .overflow

def mul (m n : Nat) : Except Fault Nat :=
  if m * n < wordLimit then .ok (m * n) else .error .overflow

/-- A sum that is missing when it does not fit, which is no fault. -/
def add? (m n : Nat) : Option Nat :=
  if m + n < wordLimit then some (m + n) else none

def byteAt (bytes : List UInt8) (index : Nat) : Except Fault UInt8 :=
  match bytes[index]? with
  | none => .error .outOfRange
  | some byte => .ok byte

/-- The bytes of a range that lies within the buffer. -/
def slice? (code : Bytecode) (start stop : Nat) : Option (List UInt8) :=
  if start ≤ stop ∧ stop ≤ code.size then some (code.extract start stop).toList else none

def decodeShort (code : Bytecode) (offset : Nat) : Except Fault (Option Nat) :=
  match (add? offset 2).bind (slice? code offset) with
  | none => .ok none
  | some bytes => do
      let high ← byteAt bytes 0
      let low ← byteAt bytes 1
      return some (high.toNat * 256 + low.toNat)

def decodeText (code : Bytecode) (offset : Nat) : Option (List Char × Nat) :=
  match code[offset]? with
  | none => none
  | some lead =>
      let length := Text.Utf8.spanLength lead
      ((add? offset length).bind (slice? code offset)).map fun bytes =>
        (Text.Utf8.decodeLossy bytes, length)

variable {σ : Type} [Draw σ]

/-- A source may be asked for a number between two bounds only if there is one. -/
def between (low high : Nat) (source : σ) : Except Fault (Nat × σ) :=
  if low ≤ high then .ok (Draw.between low high source) else .error .emptyRange

open Machine

def pickFrom (code : Bytecode) (state : State) (table : Nat) (source : σ) :
    Except Fault (Except Halt State × σ) := do
  match ← decodeShort code table with
  | none => return (.error .truncatedOperand, source)
  | some count =>
      if count = 0 then return (.error .emptyTable, source)
      let (k, source) ← between 1 count source
      let entry ← add table (← mul 2 k)
      match ← decodeShort code entry with
      | none => return (.error .truncatedOperand, source)
      | some target => return (.ok { state with offset := target }, source)

def step (code : Bytecode) (state : State) (source : σ) :
    Except Fault (Except Halt State × σ) := do
  match code[state.offset]? with
  | none => return (.error .outOfBounds, source)
  | some byte =>
      let operand ← add state.offset 1
      match Opcode.ofByte? byte with
      | none => return (.error (.unknownOpcode byte), source)
      | some .halt => return (.error .halted, source)
      | some .jump =>
          match ← decodeShort code operand with
          | none => return (.error .truncatedOperand, source)
          | some target => return (.ok { state with offset := target }, source)
      | some .put =>
          match decodeText code operand with
          | none => return (.error .truncatedOperand, source)
          | some (text, length) =>
              let next ← add operand length
              return (.ok ⟨next, state.returns, text.foldl String.push state.output⟩, source)
      | some .pick =>
          match ← decodeShort code operand with
          | none => return (.error .truncatedOperand, source)
          | some table => pickFrom code state table source
      | some .call =>
          match ← decodeShort code operand with
          | none => return (.error .truncatedOperand, source)
          | some target =>
              if state.returns.length < maxCalls then
                let back ← add operand 2
                return (.ok ⟨target, back :: state.returns, state.output⟩, source)
              else return (.error .tooManyCalls, source)
      | some .ret =>
          match state.returns with
          | [] => return (.error .nothingToReturnTo, source)
          | back :: returns => return (.ok ⟨back, returns, state.output⟩, source)

/-! ## No fault is met -/

theorem add_eq {m n : Nat} (h : m + n < wordLimit) : add m n = .ok (m + n) := if_pos h

theorem mul_eq {m n : Nat} (h : m * n < wordLimit) : mul m n = .ok (m * n) := if_pos h

/-- A range within a buffer ends at a word. -/
theorem slice?_eq {code : Bytecode} (hsize : code.size ≤ maxBytes) (offset length : Nat) :
    (add? offset length).bind (slice? code offset) =
      if offset + length ≤ code.size then some (code.extract offset (offset + length)).toList
      else none := by
  have hlimit : maxBytes < wordLimit := by decide
  unfold add?
  by_cases h : offset + length ≤ code.size
  · rw [if_pos (by omega), if_pos h, Option.bind_some, slice?,
      if_pos ⟨Nat.le_add_right offset length, h⟩]
  · rw [if_neg h]
    split
    · rw [Option.bind_some, slice?, if_neg fun hrange => h hrange.2]
    · rfl

private theorem extract_two {code : Bytecode} {offset : Nat} (h : offset + 2 ≤ code.size) :
    (code.extract offset (offset + 2)).toList = [code[offset], code[offset + 1]] := by
  rw [Array.toList_extract, List.extract_eq_take_drop, Nat.add_sub_cancel_left,
    List.drop_eq_getElem_cons (by simp; omega), List.drop_eq_getElem_cons (by simp; omega)]
  simp

theorem decodeShort_eq {code : Bytecode} (hsize : code.size ≤ maxBytes) (offset : Nat) :
    decodeShort code offset = .ok (Operand.decodeShort code offset) := by
  unfold decodeShort
  rw [slice?_eq hsize]
  by_cases h : offset + 2 ≤ code.size
  · have hhigh : code[offset]? = some code[offset] := Array.getElem?_eq_getElem _
    have hlow : code[offset + 1]? = some code[offset + 1] := Array.getElem?_eq_getElem _
    simp only [if_pos h, extract_two h, Operand.decodeShort, hhigh, hlow]
    rfl
  · rw [if_neg h]
    cases hread : Operand.decodeShort code offset with
    | none => rfl
    | some n => exact absurd (Operand.decodeShort_lt hread).2 h

theorem decodeText_eq {code : Bytecode} (hsize : code.size ≤ maxBytes) (offset : Nat) :
    decodeText code offset = Operand.decodeText code offset := by
  unfold decodeText Operand.decodeText
  cases code[offset]? with
  | none => rfl
  | some lead =>
      simp only [slice?_eq hsize]
      split <;> rfl

private theorem pickFrom_eq [LawfulDraw σ] {code : Bytecode} (hsize : code.size ≤ maxBytes)
    {table : Nat} (htable : table ≤ 0xFFFF) (state : State) (source : σ) :
    pickFrom code state table source = .ok (Machine.pickFrom code state table source) := by
  unfold pickFrom Machine.pickFrom
  rw [decodeShort_eq hsize, ok_bind]
  cases hcount : Operand.decodeShort code table with
  | none => rfl
  | some count =>
      cases count with
      | zero => rfl
      | succ others =>
          have hpos : 1 ≤ others + 1 := Nat.le_add_left 1 others
          have hcount := (Operand.decodeShort_lt hcount).1
          have hhigh := LawfulDraw.le_high 1 (others + 1) source hpos
          have hlimit : 0xFFFF + 2 * 0xFFFF < wordLimit := by decide
          simp only [between, if_pos hpos, ok_bind]
          rw [if_neg (Nat.succ_ne_zero others), mul_eq (by omega), ok_bind,
            add_eq (by omega), ok_bind, decodeShort_eq hsize, ok_bind]
          cases Operand.decodeShort code (table + 2 * (Draw.between 1 (others + 1) source).1)
          all_goals rfl

/-- Within the bounds of the offset a checked step is a step. -/
theorem step_eq [LawfulDraw σ] {code : Bytecode} (hsize : code.size ≤ maxBytes) {state : State}
    (hbounded : Bounded code state) (source : σ) :
    step code state source = .ok (Machine.step code state source) := by
  have hlimit : maxBytes + 0xFFFF + 7 < wordLimit := by decide
  have hoffset := hbounded.offset_le
  unfold step Machine.step
  cases code[state.offset]? with
  | none => rfl
  | some byte =>
      simp only [add_eq (show state.offset + 1 < wordLimit by omega), ok_bind,
        decodeShort_eq hsize, decodeText_eq hsize]
      cases Opcode.ofByte? byte with
      | none => rfl
      | some opcode =>
          cases opcode with
          | halt => rfl
          | jump => cases Operand.decodeShort code (state.offset + 1) <;> rfl
          | put =>
              cases htext : Operand.decodeText code (state.offset + 1) with
              | none => rfl
              | some entry =>
                  have hle := Operand.decodeText_le htext
                  simp only [add_eq (show state.offset + 1 + entry.2 < wordLimit by omega)]
                  rfl
          | pick =>
              cases haddress : Operand.decodeShort code (state.offset + 1) with
              | none => rfl
              | some table =>
                  have htable := (Operand.decodeShort_lt haddress).1
                  exact pickFrom_eq hsize (by omega) state source
          | call =>
              cases Operand.decodeShort code (state.offset + 1) with
              | none => rfl
              | some target =>
                  simp only [add_eq (show state.offset + 1 + 2 < wordLimit by omega)]
                  split <;> rfl
          | ret => cases state.returns <;> rfl

end Checked

namespace Machine

variable {σ : Type} [Draw σ] [LawfulDraw σ]

/--
Wherever a run of any bytes gets, few returns are pending and all of them lie in
the buffer, the offset is within reach of an operand, and what has been written
stays written.  The next step asks the source at most once, for an entry of a
table whose count it has read, and nothing that it computes overflows or is out
of range.
-/
theorem no_fault_of_reachable (code : Bytecode) (source : σ) {state : State} {now : Recorded σ}
    (h : Reachable code (Recorded.ofSource source) state now) :
    state.returns.length ≤ maxCalls ∧
      (∀ back ∈ state.returns, 3 ≤ back ∧ back ≤ code.size) ∧
      state.offset ≤ max code.size 0xFFFF ∧
      (∀ request ∈ (step code state now).2.requests,
        request.1 = 1 ∧ 1 ≤ request.2 ∧ request.2 ≤ 0xFFFF) ∧
      ((step code state now).2 = now ∨
        ∃ table count, Picks code state table count ∧ table + 2 ≤ code.size ∧
          (step code state now).2 = (Draw.between 1 count now).2 ∧
          table + 2 * (Draw.between 1 count now).1 ≤ 196605) ∧
      (code.size ≤ Checked.maxBytes → Checked.step code state now = .ok (step code state now)) ∧
      ∀ n last final, Steps code n state now last final →
        state.output.toList <+: last.output.toList := by
  have hbounded := bounded_of_reachable h
  have hwithin := (withinTables_of_reachable h).step code state
  refine ⟨hbounded.length_returns_le, hbounded.returns_bounds, hbounded.offset_le, hwithin,
    ?_, fun hsize => Checked.step_eq hsize hbounded now, fun _ _ _ => Steps.extends_output⟩
  rcases source_step code state now with hsame | ⟨table, count, hpicks, hdrawn⟩
  · exact .inl hsame
  · obtain ⟨htable, hread, hpos, hcount⟩ := hpicks.bounds
    have hhigh := LawfulDraw.le_high 1 count now hpos
    exact .inr ⟨table, count, hpicks, hread, hdrawn, by omega⟩

/-- A PICK whose table is its own operand, behind a character that is malformed. -/
def overlapping : Bytecode := #[4, 0, 6, 2, 0xC3, 0x28, 3, 0, 7, 0, 99]

theorem step_overlapping :
    Reachable overlapping (Recorded.ofSource (Script.mk [] .low)) ⟨99, [3], ""⟩
        ⟨⟨[], .low⟩, #[(1, 7)]⟩ ∧
      Checked.step overlapping ⟨99, [3], ""⟩ (Recorded.mk (Script.mk [] .low) #[(1, 7)]) =
        .ok (.error .outOfBounds, ⟨⟨[], .low⟩, #[(1, 7)]⟩) := by
  have hcall : step overlapping initial (Recorded.ofSource (Script.mk [] .low)) =
      (.ok ⟨6, [3], ""⟩, Recorded.ofSource ⟨[], .low⟩) := rfl
  have hpick : step overlapping ⟨6, [3], ""⟩ (Recorded.ofSource (Script.mk [] .low)) =
      (.ok ⟨99, [3], ""⟩, ⟨⟨[], .low⟩, #[(1, 7)]⟩) := by cbv
  have hreachable : Reachable overlapping (Recorded.ofSource (Script.mk [] .low))
      ⟨99, [3], ""⟩ ⟨⟨[], .low⟩, #[(1, 7)]⟩ := ⟨2, .head hcall (.single hpick)⟩
  obtain ⟨-, -, -, -, -, hchecked, -⟩ := no_fault_of_reachable overlapping _ hreachable
  exact ⟨hreachable, hchecked (by decide)⟩

end Machine

end Wordmill
