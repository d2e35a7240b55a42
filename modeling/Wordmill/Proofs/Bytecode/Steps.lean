import Wordmill.Bytecode.Machine
import Wordmill.Proofs.Bytecode.Linked

/-!
# Steps through linked code

What the machine does at an instruction that stands in the code, and runs of
several steps.
-/

namespace Wordmill

namespace Machine

variable {σ : Type} [Draw σ] {code : Bytecode}

/-- A number of steps in a row, none of which ends the run. -/
inductive Steps (code : Bytecode) : Nat → State → σ → State → σ → Prop
  | refl (state : State) (source : σ) : Steps code 0 state source state source
  | head {n : Nat} {state next last : State} {source after final : σ} :
      step code state source = (.ok next, after) → Steps code n next after last final →
      Steps code (n + 1) state source last final

namespace Steps

theorem single {state next : State} {source after : σ}
    (h : step code state source = (.ok next, after)) : Steps code 1 state source next after :=
  .head h (.refl next after)

theorem trans {m n : Nat} {state middle last : State} {source after final : σ}
    (hfront : Steps code m state source middle after)
    (hback : Steps code n middle after last final) :
    Steps code (m + n) state source last final := by
  induction hfront with
  | refl state source =>
      rw [Nat.zero_add]
      exact hback
  | head hstep _ ih =>
      rw [Nat.add_right_comm]
      exact .head hstep (ih hback)

private theorem runFrom_eq {n : Nat} {state last : State} {source final : σ}
    (h : Steps code n state source last final) (fuel : Nat) :
    runFrom code (n + fuel) state source = runFrom code fuel last final := by
  induction h with
  | refl state source => rw [Nat.zero_add]
  | head hstep _ ih =>
      rw [Nat.add_right_comm]
      simp only [runFrom, hstep]
      exact ih

theorem runFrom_of_error {n fuel : Nat} {state last : State} {source final : σ} {halt : Halt}
    (h : Steps code n state source last final) (hlt : n < fuel)
    (hlast : step code last final = (.error halt, final)) :
    runFrom code fuel state source = ⟨some halt, last, final⟩ := by
  obtain ⟨more, rfl⟩ : ∃ more, fuel = n + (more + 1) := ⟨fuel - n - 1, by omega⟩
  rw [h.runFrom_eq]
  simp only [runFrom, hlast]

/-- What every step keeps is kept by a run. -/
theorem invariant (motive : State → σ → Prop)
    (hstep : ∀ {state next : State} {source after : σ}, motive state source →
      step code state source = (.ok next, after) → motive next after)
    {n : Nat} {state last : State} {source final : σ}
    (h : Steps code n state source last final) (hfirst : motive state source) :
    motive last final := by
  induction h with
  | refl state source => exact hfirst
  | head hhead _ ih => exact ih (hstep hfirst hhead)

end Steps

/-- What a run from the first byte passes through, with the source as it is by then. -/
def Reachable (code : Bytecode) (source : σ) (state : State) (now : σ) : Prop :=
  ∃ n, Steps code n initial source state now

theorem Reachable.invariant {source : σ} {state : State} {now : σ} (motive : State → σ → Prop)
    (hinitial : motive initial source)
    (hstep : ∀ {state next : State} {now after : σ}, motive state now →
      step code state now = (.ok next, after) → motive next after)
    (h : Reachable code source state now) : motive state now := by
  obtain ⟨n, hsteps⟩ := h
  exact hsteps.invariant motive hstep hinitial

/-! ## The instructions -/

open Instruction

variable {startOf : Char → Nat} {offset : Nat} (returns : List Nat) (output : String) (source : σ)

theorem step_halt (h : Instruction.halt.StandsAt code startOf offset) :
    step code ⟨offset, returns, output⟩ source = (.error .halted, source) := by
  have hbyte : code[offset]? = some Opcode.halt.toByte := h
  simp only [step, hbyte, Opcode.ofByte?_toByte]

theorem step_ret (h : Instruction.ret.StandsAt code startOf offset) (back : Nat) :
    step code ⟨offset, back :: returns, output⟩ source =
      (.ok ⟨back, returns, output⟩, source) := by
  have hbyte : code[offset]? = some Opcode.ret.toByte := h
  simp only [step, hbyte, Opcode.ofByte?_toByte]

theorem step_put {c : Char} (h : (Instruction.put c).StandsAt code startOf offset) :
    step code ⟨offset, returns, output⟩ source =
      (.ok ⟨offset + size (.put c), returns, output.push c⟩, source) := by
  obtain ⟨hbyte, htext⟩ := h
  simp only [step, hbyte, Opcode.ofByte?_toByte, htext, size, Nat.add_assoc]
  rfl

theorem step_jump {target : Nat} (h : (Instruction.jump target).StandsAt code startOf offset) :
    step code ⟨offset, returns, output⟩ source = (.ok ⟨target, returns, output⟩, source) := by
  obtain ⟨hbyte, haddress⟩ := h
  simp only [step, hbyte, Opcode.ofByte?_toByte, haddress]

theorem step_call {name : Char} (h : (Instruction.call name).StandsAt code startOf offset)
    (hroom : returns.length < maxCalls) :
    step code ⟨offset, returns, output⟩ source =
      (.ok ⟨startOf name, (offset + 3) :: returns, output⟩, source) := by
  obtain ⟨hbyte, haddress⟩ := h
  simp only [step, hbyte, Opcode.ofByte?_toByte, haddress, if_pos hroom]

theorem step_call_of_full {name : Char}
    (h : (Instruction.call name).StandsAt code startOf offset)
    (hfull : returns.length = maxCalls) :
    step code ⟨offset, returns, output⟩ source = (.error .tooManyCalls, source) := by
  obtain ⟨hbyte, haddress⟩ := h
  have hnone : ¬ returns.length < maxCalls := by omega
  simp only [step, hbyte, Opcode.ofByte?_toByte, haddress, if_neg hnone]

/-- A pick draws a number and goes on at the alternative with that number. -/
theorem step_pick [LawfulDraw σ] {starts : List Nat}
    (h : (Instruction.pick starts).StandsAt code startOf offset) (hsome : 0 < starts.length) :
    ∃ start, starts[(Draw.between 1 starts.length source).1 - 1]? = some start ∧
      step code ⟨offset, returns, output⟩ source =
        (.ok ⟨start, returns, output⟩, (Draw.between 1 starts.length source).2) := by
  obtain ⟨hbyte, table, -, haddress, hcount, hentries⟩ := h
  have hlow := LawfulDraw.low_le 1 starts.length source hsome
  have hhigh := LawfulDraw.le_high 1 starts.length source hsome
  have hlt : (Draw.between 1 starts.length source).1 - 1 < starts.length := by omega
  obtain ⟨start, hstart⟩ : ∃ start,
      starts[(Draw.between 1 starts.length source).1 - 1]? = some start :=
    ⟨_, List.getElem?_eq_getElem hlt⟩
  have hentry := hentries _ _ hstart
  rw [Nat.sub_add_cancel hlow] at hentry
  refine ⟨start, hstart, ?_⟩
  obtain ⟨others, hothers⟩ : ∃ others, starts.length = others + 1 :=
    ⟨starts.length - 1, by omega⟩
  rw [hothers] at hcount hentry ⊢
  simp only [step, hbyte, Opcode.ofByte?_toByte, haddress, pickFrom, hcount, hentry]

end Machine

end Wordmill
