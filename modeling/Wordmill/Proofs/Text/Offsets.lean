import Mathlib.Algebra.GroupWithZero.Nat
import Wordmill.Proofs.Text.Lines
import Wordmill.Text.Utf8

/-!
# Offsets in bytes

Text is cut at an offset in bytes, which has to be that of a character or of the
end.  The offset at which a character is found is one.
-/

namespace Wordmill.Text

variable {c stop separator : Char} {front back text piece : List Char}

def bytes (text : List Char) : Nat := (Utf8.encode text).length

@[simp] theorem bytes_nil : bytes [] = 0 := rfl

@[simp] theorem bytes_cons (c : Char) (text : List Char) :
    bytes (c :: text) = c.utf8Size + bytes text := by
  simp [bytes, Utf8.encode]

@[simp] theorem bytes_append (front back : List Char) :
    bytes (front ++ back) = bytes front + bytes back := by
  simp [bytes, Utf8.encode_append]

theorem bytes_pos {text : List Char} (h : text ≠ []) : 0 < bytes text := by
  obtain ⟨c, others, rfl⟩ := List.exists_cons_of_ne_nil h
  have := c.utf8Size_pos
  rw [bytes_cons]
  omega

theorem length_le_bytes (text : List Char) : text.length ≤ bytes text := by
  induction text with
  | nil => exact Nat.le_refl _
  | cons c text ih =>
      have := c.utf8Size_pos
      rw [bytes_cons, List.length_cons]
      omega

theorem bytes_le_of_sublist (h : List.Sublist front text) : bytes front ≤ bytes text := by
  induction h with
  | slnil => exact Nat.le_refl _
  | cons c _ ih =>
      rw [bytes_cons]
      omega
  | cons_cons c _ ih =>
      rw [bytes_cons, bytes_cons]
      omega

/-- A piece is no longer than the text that is split. -/
theorem bytes_le_of_mem_splitOn (h : piece ∈ splitOn separator text) :
    bytes piece ≤ bytes text := by
  induction text generalizing piece with
  | nil =>
      obtain rfl := List.mem_singleton.mp h
      exact Nat.le_refl _
  | cons c text ih =>
      rw [bytes_cons]
      rw [splitOn_cons] at h
      split at h
      · rcases List.mem_cons.mp h with rfl | h
        · exact Nat.zero_le _
        · exact Nat.le_trans (ih h) (Nat.le_add_left ..)
      · cases hpieces : splitOn separator text with
        | nil => exact absurd hpieces (splitOn_ne_nil separator text)
        | cons first others =>
            rw [hpieces] at h ih
            rcases List.mem_cons.mp h with rfl | h
            · have := ih List.mem_cons_self
              rw [bytes_cons]
              omega
            · exact Nat.le_trans (ih (List.mem_cons_of_mem _ h)) (Nat.le_add_left ..)

/-- There are no more separators than bytes. -/
theorem length_splitOn_le (separator : Char) (text : List Char) :
    (splitOn separator text).length ≤ bytes text + 1 := by
  induction text with
  | nil => exact Nat.le_refl _
  | cons c text ih =>
      have hpos := c.utf8Size_pos
      rw [bytes_cons, splitOn_cons]
      split
      · rw [List.length_cons]
        omega
      · rw [List.length_modifyHead]
        omega

/-- The pieces are the text without its separators. -/
theorem sum_bytes_splitOn_le (separator : Char) (text : List Char) :
    ((splitOn separator text).map bytes).sum ≤ bytes text := by
  induction text with
  | nil => exact Nat.le_refl _
  | cons c text ih =>
      rw [bytes_cons, splitOn_cons]
      split
      · rw [List.map_cons, List.sum_cons, bytes_nil]
        omega
      · cases hpieces : splitOn separator text with
        | nil => exact absurd hpieces (splitOn_ne_nil separator text)
        | cons first others =>
            rw [hpieces] at ih
            simp only [List.modifyHead_cons, List.map_cons, List.sum_cons, bytes_cons] at ih ⊢
            omega

theorem trimEnd_sublist (text : List Char) : List.Sublist (trimEnd text) text := by
  have h := (List.dropWhile_sublist isBlank (l := text.reverse)).reverse
  rwa [List.reverse_reverse] at h

theorem trim_sublist (text : List Char) : List.Sublist (trim text) text :=
  (trimEnd_sublist _).trans (List.dropWhile_sublist _)

/-! ## Cutting -/

/-- What stands in front of an offset and behind it, unless it is no boundary. -/
def cutAt? : List Char → Nat → Option (List Char × List Char)
  | text, 0 => some ([], text)
  | [], _ + 1 => none
  | c :: text, offset + 1 =>
      if offset + 1 < c.utf8Size then none
      else (cutAt? text (offset + 1 - c.utf8Size)).map fun (front, back) => (c :: front, back)

/-- Between two texts there is a boundary. -/
theorem cutAt?_append (front back : List Char) :
    cutAt? (front ++ back) (bytes front) = some (front, back) := by
  induction front with
  | nil => cases back <;> rfl
  | cons c front ih =>
      obtain ⟨n, hn⟩ := Nat.exists_eq_add_one.mpr c.utf8Size_pos
      have hoffset : bytes (c :: front) = n + bytes front + 1 := by
        rw [bytes_cons, hn]
        omega
      have hrest : n + bytes front + 1 - c.utf8Size = bytes front := by omega
      rw [hoffset, List.cons_append, cutAt?, if_neg (by omega), hrest, ih]
      rfl

/-! ## Finding -/

/-- The offset of the first `stop`. -/
def offsetOf? (stop : Char) : List Char → Option Nat
  | [] => none
  | c :: text => if c = stop then some 0 else (offsetOf? stop text).map (c.utf8Size + ·)

theorem offsetOf?_cut (hfront : stop ∉ front) (back : List Char) :
    offsetOf? stop (front ++ stop :: back) = some (bytes front) := by
  induction front with
  | nil => exact if_pos rfl
  | cons c front ih =>
      obtain ⟨hc, hfront⟩ := not_or.mp (List.mem_cons.not.mp hfront)
      rw [List.cons_append, offsetOf?, if_neg (Ne.symm hc), ih hfront, bytes_cons]
      rfl

theorem offsetOf?_of_notMem (h : stop ∉ text) : offsetOf? stop text = none := by
  induction text with
  | nil => rfl
  | cons c text ih =>
      obtain ⟨hc, htext⟩ := not_or.mp (List.mem_cons.not.mp h)
      rw [offsetOf?, if_neg (Ne.symm hc), ih htext]
      rfl

end Wordmill.Text
