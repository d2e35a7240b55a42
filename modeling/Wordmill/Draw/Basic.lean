/-!
Sources of draws.  A source hands out whole numbers within bounds that the
caller gives; nothing else is assumed of how it chooses them.
-/

namespace Wordmill

class Draw (σ : Type) where
  between : Nat → Nat → σ → Nat × σ

/-- Every answer lies within the bounds asked for. -/
class LawfulDraw (σ : Type) [Draw σ] : Prop where
  low_le (low high : Nat) (source : σ) :
    low ≤ high → low ≤ (Draw.between low high source).1
  le_high (low high : Nat) (source : σ) :
    low ≤ high → (Draw.between low high source).1 ≤ high

instance : Draw StdGen where
  between low high source := randNat source low high

/-- A source together with the bounds it was asked for, oldest first. -/
structure Recorded (σ : Type) where
  source : σ
  requests : Array (Nat × Nat)
  deriving Repr

namespace Recorded

variable {σ : Type}

def ofSource (source : σ) : Recorded σ := ⟨source, #[]⟩

instance [Draw σ] : Draw (Recorded σ) where
  between low high recorded :=
    let requests := recorded.requests.push (low, high)
    let (answer, source) := Draw.between low high recorded.source
    (answer, ⟨source, requests⟩)

theorem between_eq [Draw σ] (low high : Nat) (recorded : Recorded σ) :
    Draw.between low high recorded =
      ((Draw.between low high recorded.source).1,
        ⟨(Draw.between low high recorded.source).2, recorded.requests.push (low, high)⟩) := rfl

instance [Draw σ] [LawfulDraw σ] : LawfulDraw (Recorded σ) where
  low_le low high recorded h := LawfulDraw.low_le low high recorded.source h
  le_high low high recorded h := LawfulDraw.le_high low high recorded.source h

end Recorded

end Wordmill
