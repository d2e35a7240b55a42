import Mathlib.Data.List.Forall2
import Wordmill.Text.Blank

/-!
# Text in lines

Splitting a text takes it apart at the separators and nowhere else, so lines
that hold no line end are found again in the text that is made of them.
-/

namespace Wordmill.Text

theorem splitOn_cons (separator c : Char) (text : List Char) :
    splitOn separator (c :: text) =
      if c = separator then [] :: splitOn separator text
      else (splitOn separator text).modifyHead (c :: ·) := by
  simp only [splitOn, List.foldr_cons]
  split
  · rfl
  · have hsome := splitOn_ne_nil separator text
    unfold splitOn at hsome
    generalize List.foldr _ [[]] text = pieces at hsome
    cases pieces with
    | nil => contradiction
    | cons piece others => rfl

theorem splitOn_eq (separator : Char) (text : List Char) :
    splitOn separator text = text.splitOn separator := by
  induction text with
  | nil => rfl
  | cons c text ih => simp [splitOn_cons, ih, List.splitOn_cons_eq_if_modifyHead]

/-- Each line with a line end behind it. -/
def joinLines (lines : List (List Char)) : List Char := lines.flatMap (· ++ ['\n'])

@[simp] theorem joinLines_cons (line : List Char) (lines : List (List Char)) :
    joinLines (line :: lines) = line ++ '\n' :: joinLines lines := by
  simp [joinLines]

/-- Behind the last line end there is an empty piece. -/
theorem splitOn_joinLines {lines : List (List Char)} (h : ∀ line ∈ lines, '\n' ∉ line) :
    splitOn '\n' (joinLines lines) = lines ++ [[]] := by
  induction lines with
  | nil => rfl
  | cons line lines ih =>
      obtain ⟨hline, hlines⟩ := List.forall_mem_cons.mp h
      rw [List.cons_append, ← ih hlines, joinLines_cons, splitOn_eq, splitOn_eq,
        List.splitOn_append_cons_self_of_not_mem hline]

/-! ## Up to a character -/

section Cut

variable {stop : Char} {front back : List Char}

/-- Every text can be cut in front of the first `stop`, or else at its end. -/
theorem exists_cut (stop : Char) (text : List Char) :
    ∃ front back, text = front ++ back ∧ stop ∉ front ∧
      (back = [] ∨ ∃ others, back = stop :: others) := by
  induction text with
  | nil => exact ⟨[], [], rfl, List.not_mem_nil, .inl rfl⟩
  | cons c text ih =>
      by_cases h : c = stop
      · subst h
        exact ⟨[], c :: text, rfl, List.not_mem_nil, .inr ⟨text, rfl⟩⟩
      · obtain ⟨front, back, rfl, hfront, hback⟩ := ih
        refine ⟨c :: front, back, rfl, ?_, hback⟩
        simp [hfront, Ne.symm h]

theorem takeWhile_cut (hfront : stop ∉ front)
    (hback : back = [] ∨ ∃ others, back = stop :: others) :
    (front ++ back).takeWhile (· ≠ stop) = front := by
  rw [List.takeWhile_append_of_pos fun c hc => decide_eq_true (ne_of_mem_of_not_mem hc hfront)]
  rcases hback with rfl | ⟨others, rfl⟩ <;> simp

theorem dropWhile_cut (hfront : stop ∉ front)
    (hback : back = [] ∨ ∃ others, back = stop :: others) :
    (front ++ back).dropWhile (· ≠ stop) = back := by
  rw [List.dropWhile_append_of_pos fun c hc => decide_eq_true (ne_of_mem_of_not_mem hc hfront)]
  rcases hback with rfl | ⟨others, rfl⟩ <;> simp

end Cut

/-! ## Carriage returns -/

/-- A carriage return in front of every line end. -/
def withReturns (text : List Char) : List Char :=
  text.flatMap fun c => if c = '\n' then ['\r', '\n'] else [c]

/-- A line without a carriage return, and the same line with one at its end or without. -/
def ReturnedFrom (line returned : List Char) : Prop :=
  '\r' ∉ line ∧ (returned = line ∨ returned = line ++ ['\r'])

theorem ReturnedFrom.cons {line returned : List Char} (h : ReturnedFrom line returned) {c : Char}
    (hc : c ≠ '\r') : ReturnedFrom (c :: line) (c :: returned) := by
  obtain ⟨hline, rfl | rfl⟩ := h
  · exact ⟨by simp [hline, Ne.symm hc], .inl rfl⟩
  · exact ⟨by simp [hline, Ne.symm hc], .inr rfl⟩

theorem returnedFrom_splitOn {text : List Char} (h : '\r' ∉ text) :
    List.Forall₂ ReturnedFrom (text.splitOn '\n') ((withReturns text).splitOn '\n') := by
  induction text with
  | nil => exact .cons ⟨h, .inl rfl⟩ .nil
  | cons c text ih =>
      rw [List.mem_cons, not_or] at h
      obtain ⟨hc, htext⟩ := h
      have hlines := ih htext
      by_cases hend : c = '\n'
      · have hreturns : withReturns (c :: text) = ['\r'] ++ '\n' :: withReturns text := by
          simp [withReturns, hend]
        rw [hreturns, List.splitOn_append_cons_self_of_not_mem (by decide), hend,
          List.splitOn_cons_eq_if_modifyHead, if_pos BEq.rfl]
        exact .cons ⟨List.not_mem_nil, .inr rfl⟩ hlines
      · have hreturns : withReturns (c :: text) = c :: withReturns text := by
          simp [withReturns, hend]
        simp only [hreturns, List.splitOn_cons_eq_if_modifyHead, beq_iff_eq, if_neg hend]
        generalize text.splitOn '\n' = lines at hlines
        generalize (withReturns text).splitOn '\n' = returned at hlines
        cases hlines with
        | nil => exact .nil
        | cons hline hlines => exact .cons (hline.cons (Ne.symm hc)) hlines

end Wordmill.Text
