import Wordmill.Proofs.Bytecode.Assumptions
import Wordmill.Proofs.Bytecode.Overflow

/-!
# Room in buffers

No buffer is larger than `2 ^ 63 - 1` bytes.  One that grows asks for up to twice
the room that it needs, so that it is sure to get it if it needs no more than
`2 ^ 62` bytes; what happens to a larger one is left open.  Of memory, that of the
native stack included, there is as much as is asked for.
-/

namespace Wordmill

/--
What a call may end in instead of a result.  A list that is given its whole
length at once is over its capacity exactly if it is too long; a buffer that
grows only may have no room.
-/
inductive Panic where
  | boundary
  | fault (fault : Checked.Fault)
  | assumption (assumption : Assumption)
  | endless
  | capacity
  | room
  deriving DecidableEq, Repr

namespace Checked

variable {α β : Type}

def orPanic : Except Fault α → Except Panic α
  | .error fault => .error (.fault fault)
  | .ok value => .ok value

theorem orPanic_ok (value : α) : orPanic (.ok value) = .ok value := rfl

/-- As many bytes as a buffer is sure to have room for. -/
def sureRoom : Nat := Nat.pow 2 62

/-- What is made with a buffer that has to grow to `needed` bytes. -/
def fit (needed : Nat) (value : α) : Except Panic α :=
  if needed ≤ sureRoom then .ok value else .error .room

def grow (needed : Nat) : Except Panic Unit := fit needed ()

/-- The checked result is the plain one, unless a buffer needs more than it is sure to get. -/
def Takes (peak : Nat) (checked plain : Except Panic α) : Prop :=
  checked = plain ∨ checked = .error .room ∧ sureRoom < peak

namespace Takes

variable {peak needed : Nat} {checked plain : Except Panic α}

theorem refl (peak : Nat) (result : Except Panic α) : Takes peak result result := .inl rfl

theorem fit (h : needed ≤ peak) (value : α) :
    Takes peak (Checked.fit needed value) (.ok value) := by
  by_cases hroom : needed ≤ sureRoom
  · exact .inl (if_pos hroom)
  · exact .inr ⟨if_neg hroom, Nat.lt_of_lt_of_le (Nat.not_le.mp hroom) h⟩

theorem grow (h : needed ≤ peak) : Takes peak (Checked.grow needed) (.ok ()) := fit h ()

theorem bind {value : α} {next : α → Except Panic β} {result : Except Panic β}
    (h : Takes peak checked (.ok value)) (hnext : Takes peak (next value) result) :
    Takes peak (checked >>= next) result := by
  rcases h with rfl | ⟨rfl, hpeak⟩
  · exact hnext
  · exact .inr ⟨rfl, hpeak⟩

theorem error {panic : Panic} (h : Takes peak checked (.error panic))
    (next : α → Except Panic β) : Takes peak (checked >>= next) (.error panic) := by
  rcases h with rfl | ⟨rfl, hpeak⟩
  · exact .refl ..
  · exact .inr ⟨rfl, hpeak⟩

theorem eq_of_le (h : Takes peak checked plain) (hpeak : peak ≤ sureRoom) : checked = plain :=
  h.resolve_right fun hroom => Nat.not_lt.mpr hpeak hroom.2

end Takes

end Checked

end Wordmill
