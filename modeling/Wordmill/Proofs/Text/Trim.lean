import Mathlib.Data.List.DropRight
import Wordmill.Text.Blank

/-!
# Trimming

Blanks at the end of a text go, and nothing in front of a character that is not
blank does.
-/

namespace Wordmill.Text

variable {text blanks : List Char}

theorem trimEnd_eq_rdropWhile (text : List Char) : trimEnd text = text.rdropWhile isBlank := rfl

theorem trimEnd_eq_self (h : ∀ c ∈ text.getLast?, isBlank c = false) : trimEnd text = text := by
  rw [trimEnd_eq_rdropWhile, List.rdropWhile_eq_self_iff]
  intro hsome
  simp [h _ (List.getLast?_eq_some_getLast hsome)]

theorem trimEnd_append_blank (text : List Char) (h : ∀ c ∈ blanks, isBlank c = true) :
    trimEnd (text ++ blanks) = trimEnd text := by
  rw [trimEnd, List.reverse_append, List.dropWhile_append_of_pos fun c hc =>
    h c (List.mem_reverse.mp hc)]
  exact (trimEnd_eq_rdropWhile text).symm

theorem trimEnd_append_cons (text : List Char) {c : Char} (hc : isBlank c = false)
    (others : List Char) : trimEnd (text ++ c :: others) = text ++ c :: trimEnd others := by
  simp only [trimEnd, List.reverse_append, List.reverse_cons, List.append_assoc,
    List.singleton_append, List.dropWhile_append]
  split
  · rename_i hnil
    simp [List.isEmpty_iff.mp hnil, hc]
  · simp

theorem trimStart_append (h : trimStart text ≠ []) (others : List Char) :
    trimStart (text ++ others) = trimStart text ++ others := by
  unfold trimStart at h ⊢
  rw [List.dropWhile_append, if_neg (by simpa using h)]

theorem trimStart_eq_nil (h : ∀ c ∈ text, isBlank c = true) : trimStart text = [] :=
  List.dropWhile_eq_nil_iff.mpr h

/-- What is left of a text without the blanks in front ends as the text does. -/
theorem trimEnd_trimStart (h : ∀ c ∈ text.getLast?, isBlank c = false) :
    trim text = trimStart text := by
  refine trimEnd_eq_self fun c hc => h c ?_
  rw [← List.takeWhile_append_dropWhile (p := isBlank) (l := text), List.getLast?_append]
  unfold trimStart at hc
  simp [Option.mem_def.mp hc]

theorem trim_append_blank (text : List Char) (h : ∀ c ∈ blanks, isBlank c = true) :
    trim (text ++ blanks) = trim text := by
  by_cases hsome : trimStart text = []
  · have hblank : ∀ c ∈ text ++ blanks, isBlank c = true := by
      intro c hc
      rcases List.mem_append.mp hc with hc | hc
      · exact List.dropWhile_eq_nil_iff.mp hsome c hc
      · exact h c hc
    rw [trim, trim, hsome, trimStart_eq_nil hblank]
  · rw [trim, trim, trimStart_append hsome, trimEnd_append_blank _ h]

theorem trim_append_cons (hsome : trim text ≠ []) (hend : ∀ c ∈ text.getLast?, isBlank c = false)
    (blanks : List Char) {c : Char} (hc : isBlank c = false) (others : List Char) :
    trim (text ++ blanks ++ c :: others) = trim text ++ blanks ++ c :: trimEnd others := by
  rw [trimEnd_trimStart hend] at hsome ⊢
  rw [trim, List.append_assoc, trimStart_append hsome, ← List.append_assoc,
    trimEnd_append_cons _ hc]

end Wordmill.Text
