import Mathlib.Data.List.Forall2
import Wordmill.Grammar.Line
import Wordmill.Proofs.Text.Lines

/-!
# What a line of a grammar file says

The parts that a line is read into, as relations between the line and its parts.
-/

namespace Wordmill

theorem Cursor.takeUntil_cut {stop : Char} {front back : List Char} (hfront : stop ∉ front)
    (hback : back = [] ∨ ∃ others, back = stop :: others) :
    (Cursor.mk (front ++ back)).takeUntil [stop] =
      (if front.isEmpty then none else some front, ⟨back⟩) := by
  have hstop : (fun c => !([stop] : List Char).contains c) = fun c => decide (c ≠ stop) := by
    funext c
    by_cases h : c = stop <;> simp [h]
  simp only [takeUntil, hstop, Text.takeWhile_cut hfront hback, Text.dropWhile_cut hfront hback]

namespace Grammar

open Text

/-! ## Definitions -/

/--
The name goes up to the first equals sign behind one character, and the source
from there up to a `#` or to the end.
-/
inductive Defines : List Char → List Char → List Char → Prop
  | mk (first : Char) {more value back : List Char} : '=' ∉ more → '#' ∉ value → value ≠ [] →
      (back = [] ∨ ∃ comment, back = '#' :: comment) →
      Defines (first :: (more ++ '=' :: (value ++ back))) (trim (first :: more)) (trim value)

theorem definition?_cut (first : Char) {more value back : List Char} (hmore : '=' ∉ more)
    (hvalue : '#' ∉ value) (hback : back = [] ∨ ∃ comment, back = '#' :: comment) :
    definition? (first :: (more ++ '=' :: (value ++ back))) =
      if value.isEmpty then none else some (trim (first :: more), trim value) := by
  have hname := Cursor.takeUntil_cut hmore (.inr ⟨value ++ back, rfl⟩)
  have hsource := Cursor.takeUntil_cut hvalue hback
  have hmore' : (if more.isEmpty then none else some more).getD [] = more := by
    cases more <;> rfl
  simp only [definition?, Cursor.next, Cursor.peek, List.head?_cons, List.tail_cons, hname,
    Cursor.skip, Cursor.isAt, Option.any_some, List.contains_cons, BEq.rfl, Bool.true_or,
    if_true, hsource, hmore', Option.toList_some, List.singleton_append]
  split <;> rfl

theorem definition?_of_notMem (first : Char) {more : List Char} (hmore : '=' ∉ more) :
    definition? (first :: more) = none := by
  have hname : (Cursor.mk (more ++ [])).takeUntil ['='] = _ :=
    Cursor.takeUntil_cut hmore (.inl rfl)
  rw [List.append_nil] at hname
  simp [definition?, Cursor.next, Cursor.peek, hname, Cursor.skip, Cursor.isAt]

theorem definition?_eq_some_iff {line name source : List Char} :
    definition? line = some (name, source) ↔ Defines line name source := by
  constructor
  · intro h
    cases line with
    | nil => contradiction
    | cons first others =>
        obtain ⟨more, defined, rfl, hmore, rfl | ⟨defined, rfl⟩⟩ := exists_cut '=' others
        · rw [List.append_nil, definition?_of_notMem first hmore] at h
          contradiction
        · obtain ⟨value, back, rfl, hvalue, hback⟩ := exists_cut '#' defined
          rw [definition?_cut first hmore hvalue hback] at h
          split at h
          · contradiction
          · rename_i hsome
            cases h
            exact .mk first hmore hvalue (by simpa using hsome) hback
  · rintro ⟨first, hmore, hvalue, hsome, hback⟩
    rw [definition?_cut first hmore hvalue hback, if_neg (by simpa using hsome)]

/-! ## Comments -/

/-- A comment begins at the first `#`, unless nothing comes behind it. -/
inductive Uncommented : List Char → List Char → Prop
  | comment (c : Char) {front back : List Char} : '#' ∉ front →
      Uncommented (front ++ '#' :: c :: back) (trimEnd front)
  | ending {front : List Char} : '#' ∉ front → Uncommented (front ++ ['#']) (front ++ ['#'])
  | plain {line : List Char} : '#' ∉ line → Uncommented line line

theorem withoutComment_eq_iff {line source : List Char} :
    withoutComment line = source ↔ Uncommented line source := by
  constructor
  · rintro rfl
    obtain ⟨front, back, rfl, hfront, hback⟩ := exists_cut '#' line
    unfold withoutComment
    rw [dropWhile_cut hfront hback, takeWhile_cut hfront hback]
    rcases hback with rfl | ⟨_ | ⟨c, others⟩, rfl⟩
    · rw [List.append_nil]
      exact .plain hfront
    · exact .ending hfront
    · exact .comment c hfront
  · rintro (⟨c, hfront⟩ | hfront | hfront)
    · rw [withoutComment, dropWhile_cut hfront (.inr ⟨_, rfl⟩),
        takeWhile_cut hfront (.inr ⟨_, rfl⟩)]
    · rw [withoutComment, dropWhile_cut hfront (.inr ⟨_, rfl⟩)]
    · have hdrop : (line ++ []).dropWhile (· ≠ '#') = [] := dropWhile_cut hfront (.inl rfl)
      rw [List.append_nil] at hdrop
      simp only [withoutComment, hdrop]

theorem withoutReturn_sublist (line : List Char) :
    List.Sublist (withoutReturn line) line := by
  unfold withoutReturn
  split
  · exact List.dropLast_sublist line
  · exact List.Sublist.refl line

/-! ## Lines -/

/-- What a line says, by what is left of it without blanks around it. -/
inductive Line.Reads : List Char → Line → Prop
  | blank {line : List Char} : trim line = [] → Reads line .ignored
  | comment {line comment : List Char} : trim line = '#' :: comment → Reads line .ignored
  | definition {line name source : List Char} : (trim line).head? ≠ some '#' →
      Defines (trim line) name source → Reads line (.definition name source)
  | root {line source : List Char} : trim line ≠ [] → (trim line).head? ≠ some '#' →
      (∀ name source, ¬ Defines (trim line) name source) →
      Uncommented (withoutReturn line) source → Reads line (.root source)

theorem Line.ofText_eq_iff {line : List Char} {found : Line} :
    ofText line = found ↔ Reads line found := by
  constructor
  · rintro rfl
    unfold ofText
    split
    · rename_i hblank
      exact .blank hblank
    · rename_i comment hcomment
      exact .comment hcomment
    · rename_i stripped hsome hplain
      have hhead : (trim line).head? ≠ some '#' := by
        intro h
        obtain ⟨comment, hcomment⟩ := List.head?_eq_some_iff.mp h
        exact hplain comment hcomment
      split
      · rename_i name source hdefinition
        exact .definition hhead (definition?_eq_some_iff.mp hdefinition)
      · rename_i hnone
        refine .root hsome hhead ?_ (withoutComment_eq_iff.mp rfl)
        intro name source hdefines
        rw [definition?_eq_some_iff.mpr hdefines] at hnone
        contradiction
  · intro h
    unfold ofText
    cases h with
    | blank hblank => simp only [hblank]
    | comment hcomment => simp only [hcomment]
    | definition hhead hdefines =>
        have hdefinition := definition?_eq_some_iff.mpr hdefines
        split
        · rename_i hblank
          rw [hblank] at hdefinition
          contradiction
        · rename_i comment hcomment
          simp [hcomment] at hhead
        · rw [hdefinition]
    | root hsome hhead hnone huncommented =>
        split
        · contradiction
        · rename_i comment hcomment
          simp [hcomment] at hhead
        · split
          · rename_i name source hdefinition
            exact absurd (definition?_eq_some_iff.mp hdefinition) (hnone name source)
          · rw [withoutComment_eq_iff.mpr huncommented]

end Grammar

end Wordmill
