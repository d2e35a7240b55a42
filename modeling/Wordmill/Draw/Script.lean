import Wordmill.Draw.Basic

/-!
Scripted draws, for runs that have to come out the same every time.
-/

namespace Wordmill

inductive Continuation where
  | low
  | high
  | congruential (state : UInt64)
  deriving DecidableEq, Repr

structure Script where
  draws : List Nat
  continuation : Continuation
  deriving DecidableEq, Repr

namespace Script

/-- The linear congruential step modulo `2 ^ 64`. -/
def advance (state : UInt64) : UInt64 := state * 6364136223846793005 + 1442695040888963407

/-- A scripted draw out of bounds is moved to the nearer bound. -/
def between (low high : Nat) (script : Script) : Nat × Script :=
  match script.draws, script.continuation with
  | draw :: draws, continuation => (max low (min draw high), ⟨draws, continuation⟩)
  | [], .low => (low, script)
  | [], .high => (high, script)
  | [], .congruential state =>
      let next := advance state
      (low + (next >>> 33).toNat % (high - low + 1), ⟨[], .congruential next⟩)

instance : Draw Script := ⟨between⟩

instance : LawfulDraw Script where
  low_le low high script h := by
    simp only [Draw.between, between]
    split
    · exact Nat.le_max_left ..
    · exact Nat.le_refl low
    · exact h
    · exact Nat.le_add_right ..
  le_high low high script h := by
    simp only [Draw.between, between]
    split
    · simp only; omega
    · exact h
    · exact Nat.le_refl high
    · rename_i state _ _
      have : (advance state >>> 33).toNat % (high - low + 1) < high - low + 1 :=
        Nat.mod_lt _ (by omega)
      simp only
      omega

end Script

end Wordmill
