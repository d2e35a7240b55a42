import Mathlib.Algebra.GroupWithZero.Nat
import Wordmill.Pattern.Reader
import Wordmill.Proofs.Room

/-!
# Room for a pattern

The reader with what it keeps measured after each character.  It does not keep
more parts than it has read characters.
-/

namespace Wordmill

namespace Pattern

/-- What is kept of the choice being read; a quote counts as a character, and text as one. -/
def Place.weight : Place → Nat
  | .betweenGroups => 0
  | .afterSlash done => done.length
  | .inText done chars => done.length + max chars.length 1
  | .inQuotes done chars => done.length + chars.length + 1
  | .afterQuotes done chars => done.length + chars.length + 2

namespace Reading

def groupCount (r : Reading) : Nat :=
  r.groups.length + (r.openings.map (·.before.length)).sum

def weight (r : Reading) : Nat := r.groupCount + r.place.weight

variable {r next : Reading} {c : Char} {bracket : Bracket}

private theorem weight_openBracket (h : r.openBracket bracket = .ok next) :
    next.weight ≤ r.groupCount + 1 := by
  unfold openBracket at h
  split at h
  · contradiction
  · cases h
    simp [weight, groupCount, Place.weight]

/-- All groups inside the brackets become a single one. -/
private theorem weight_closeBracket (h : r.closeBracket c bracket = .ok next) :
    next.weight ≤ r.groupCount + 1 := by
  unfold closeBracket at h
  split at h
  · contradiction
  · split at h
    · contradiction
    · rename_i opening openings hopenings
      split at h
      · cases h
        simp only [weight, groupCount, Place.weight, hopenings, List.length_cons, List.map_cons,
          List.sum_cons]
        omega
      · contradiction

private theorem weight_startGroup (h : r.startGroup c = .ok next) :
    next.weight ≤ r.groupCount + 1 := by
  unfold startGroup at h
  split at h
  · exact weight_openBracket h
  · exact weight_openBracket h
  · exact weight_closeBracket h
  · exact weight_closeBracket h
  · contradiction
  · cases h
    exact Nat.le_refl _
  · cases h
    exact Nat.le_refl _

/-- A group that ends is one part, and so is what the next one starts with. -/
private theorem weight_nextGroup {done : List Pattern} {last : Pattern}
    (h : (r.endGroup done last).startGroup c = .ok next) : next.weight ≤ r.groupCount + 2 := by
  have hended : (r.endGroup done last).groupCount = r.groupCount + 1 := by
    simp only [endGroup, groupCount, List.length_cons]
    omega
  have hnext := weight_startGroup h
  omega

/-- One character adds one part at most. -/
theorem weight_read (h : r.read c = .ok next) : next.weight ≤ r.weight + 1 := by
  unfold read at h
  rw [weight.eq_def r]
  cases hplace : r.place with
  | betweenGroups =>
      simp only [hplace] at h
      exact weight_startGroup h
  | afterSlash done =>
      simp only [hplace] at h
      split at h
      · cases h
        exact Nat.le_refl _
      · split at h
        · contradiction
        · cases h
          exact Nat.le_refl _
  | inText done chars =>
      simp only [hplace] at h
      split at h
      · cases h
        simp only [weight, groupCount, Place.weight, List.length_cons]
        omega
      · split at h
        · have hnext := weight_nextGroup h
          simp only [Place.weight]
          omega
        · cases h
          simp only [weight, groupCount, Place.weight, List.length_cons]
          omega
  | inQuotes done chars =>
      simp only [hplace] at h
      split at h
      · cases h
        simp only [weight, groupCount, Place.weight, List.length_cons]
        omega
      · split at h
        · contradiction
        · cases h
          exact Nat.le_refl _
  | afterQuotes done chars =>
      simp only [hplace] at h
      split at h
      · cases h
        simp only [weight, groupCount, Place.weight, List.length_cons]
        omega
      · have hnext := weight_nextGroup h
        simp only [Place.weight]
        omega

end Reading

end Pattern

namespace Checked

open Pattern (Reading)

variable {r : Reading} {peak : Nat}

/-- A part takes 32 bytes, and there may be one more of them when a group ends. -/
def readAll (r : Reading) : List Char → Except Panic (Except SyntaxError Reading)
  | [] => return .ok r
  | c :: rest =>
      match r.read c with
      | .error e => return .error e
      | .ok next => do
          grow (32 * (next.weight + 1))
          readAll next rest

def parse (source : List Char) : Except Panic (Except SyntaxError Pattern) := do
  match ← readAll .start source with
  | .error e => return .error e
  | .ok r => return r.finish

private theorem takes_readAll {text : List Char}
    (hpeak : 32 * (r.weight + text.length + 1) ≤ peak) :
    Takes peak (readAll r text) (.ok (r.readAll text)) := by
  induction text generalizing r with
  | nil => exact .refl ..
  | cons c rest ih =>
      rw [readAll, Reading.readAll]
      cases hread : r.read c with
      | error e => exact .refl ..
      | ok next =>
          have hweight := Reading.weight_read hread
          rw [List.length_cons] at hpeak
          exact .bind (.grow (by omega)) (ih (by omega))

theorem takes_parse {source : List Char} (hpeak : 32 * (source.length + 1) ≤ peak) :
    Takes peak (parse source) (.ok (Pattern.parse source)) := by
  have hstart : Reading.start.weight = 0 := rfl
  refine .bind (takes_readAll (by omega)) ?_
  rw [Pattern.parse]
  cases Reading.start.readAll source with
  | error e => exact .refl ..
  | ok r => exact .refl ..

end Checked

end Wordmill
