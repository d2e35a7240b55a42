import Wordmill.Proofs.Grammar.Arrangement
import Wordmill.Proofs.Text.Trim

/-!
# Line ends, empty lines and comments

How the lines of a file end and what is put between them makes no difference.
A comment behind a line makes none either, as long as the line with the comment
is not read as a definition because of it.
-/

namespace Wordmill.Grammar

open Text

theorem loadLines_of_map_eq {lines others : List (List Char)}
    (h : lines.map Line.ofText = others.map Line.ofText) : loadLines lines = loadLines others :=
  loadLines_congr (by rw [h]) (by rw [h])

/-! ## Line ends -/

theorem withoutReturn_eq_self {line : List Char} (h : line.getLast? ≠ some '\r') :
    withoutReturn line = line :=
  if_neg h

private theorem withoutReturn_append_return (line : List Char) :
    withoutReturn (line ++ ['\r']) = line := by
  simp [withoutReturn]

private theorem ofText_append_return {line : List Char} (h : '\r' ∉ line) :
    Line.ofText (line ++ ['\r']) = Line.ofText line := by
  have htrim : trim (line ++ ['\r']) = trim line :=
    trim_append_blank line (List.forall_mem_singleton.mpr (by decide))
  have hreturn : withoutReturn (line ++ ['\r']) = withoutReturn line := by
    rw [withoutReturn_append_return, withoutReturn_eq_self]
    exact fun hlast => h (List.mem_of_getLast? hlast)
  unfold Line.ofText
  rw [htrim, hreturn]

private theorem map_ofText_of_returned {lines returned : List (List Char)}
    (h : List.Forall₂ ReturnedFrom lines returned) :
    returned.map Line.ofText = lines.map Line.ofText := by
  induction h with
  | nil => rfl
  | cons hline _ ih =>
      obtain ⟨hplain, rfl | rfl⟩ := hline
      · simp [ih]
      · simp [ih, ofText_append_return hplain]

/-! ## Lines that say nothing -/

/-- Blanks alone, or a comment with nothing but blanks in front of it. -/
inductive Silent : List Char → Prop
  | blank {line : List Char} : (∀ c ∈ line, isBlank c = true) → Silent line
  | comment {blanks : List Char} (comment : List Char) : (∀ c ∈ blanks, isBlank c = true) →
      Silent (blanks ++ '#' :: comment)

private theorem ofText_of_silent {line : List Char} (h : Silent line) :
    Line.ofText line = .ignored := by
  rw [Line.ofText_eq_iff]
  cases h with
  | blank hblank =>
      refine .blank ?_
      rw [trim, trimStart_eq_nil hblank]
      rfl
  | @comment blanks comment hblanks =>
      have htrim : trim (blanks ++ '#' :: comment) = '#' :: trimEnd comment := by
        rw [trim, trimStart, List.dropWhile_append_of_pos hblanks]
        exact trimEnd_append_cons [] (by decide) comment
      exact .comment htrim

/-- The same lines with any number of silent ones between them, above them and below. -/
inductive Padded : List (List Char) → List (List Char) → Prop
  | nil : Padded [] []
  | keep (line : List Char) {lines padded : List (List Char)} :
      Padded lines padded → Padded (line :: lines) (line :: padded)
  | silent {line : List Char} {lines padded : List (List Char)} :
      Silent line → Padded lines padded → Padded lines (line :: padded)

private theorem parts_of_padded {lines padded : List (List Char)} (h : Padded lines padded) :
    definitionParts (padded.map Line.ofText) = definitionParts (lines.map Line.ofText) ∧
      rootSources (padded.map Line.ofText) = rootSources (lines.map Line.ofText) := by
  induction h with
  | nil => exact ⟨rfl, rfl⟩
  | keep line _ ih => simp [ih]
  | silent hline _ ih => simp [ih, ofText_of_silent hline, Line.parts?, Line.root?]

/--
Carriage returns in front of the line ends change nothing in a text that has no
others, and lines of blanks or comments may stand anywhere.
-/
theorem load_of_spacing (text : List Char) :
    ('\r' ∉ text → load (withReturns text) = load text) ∧
      ∀ padded, Padded (text.splitOn '\n') (padded.splitOn '\n') → load padded = load text := by
  simp only [load_eq_loadLines]
  refine ⟨fun hplain => ?_, fun padded hpadded => ?_⟩
  · exact loadLines_of_map_eq (map_ofText_of_returned (returnedFrom_splitOn hplain))
  · obtain ⟨hdefinitions, hroots⟩ := parts_of_padded hpadded
    exact loadLines_congr (by rw [hdefinitions]) (by rw [hroots])

/-! Two comments around the lines, and a blank line between them. -/

def spaced : List Char := "  Cb#\nC = p \nV = a#".toList

def padding : List Char := "# above\n  Cb#\n \t\nC = p \nV = a#\n  #".toList

theorem load_padding :
    '\r' ∉ spaced ∧ Padded (spaced.splitOn '\n') (padding.splitOn '\n') ∧
      load (withReturns spaced) = .ok (.mk "  Cb#".toList [('C', .mk ['p'] [])]) ∧
      load padding = .ok (.mk "  Cb#".toList [('C', .mk ['p'] [])]) := by
  have hreturn : '\r' ∉ spaced := by decide
  have habove : Silent ([] ++ '#' :: " above".toList) := .comment _ (by simp)
  have hbelow : Silent ([' ', ' '] ++ '#' :: []) := .comment _ (by simp [isBlank])
  have hlines : spaced.splitOn '\n' = ["  Cb#".toList, "C = p ".toList, "V = a#".toList] := by
    decide
  have hpadding : padding.splitOn '\n' = ["# above".toList, "  Cb#".toList, " \t".toList,
      "C = p ".toList, "V = a#".toList, "  #".toList] := by
    decide
  have hpadded : Padded (spaced.splitOn '\n') (padding.splitOn '\n') := by
    rw [hlines, hpadding]
    exact .silent habove <| .keep _ <| .silent (.blank (by simp [isBlank])) <| .keep _ <| .keep _ <|
      .silent hbelow .nil
  have hload : load spaced = .ok (.mk "  Cb#".toList [('C', .mk ['p'] [])]) := by rfl
  obtain ⟨hreturns, hsilent⟩ := load_of_spacing spaced
  exact ⟨hreturn, hpadded, (hreturns hreturn).trans hload, (hsilent _ hpadded).trans hload⟩

/-! ## Comments behind a line -/

/-- Blanks and a comment can be put behind the line, which says something and has no comment. -/
structure Commentable (line blanks comment : List Char) : Prop where
  speaks : Line.ofText line ≠ .ignored
  plain : '#' ∉ line
  ending : ∀ c ∈ line.getLast?, isBlank c = false
  blank : ∀ c ∈ blanks, isBlank c = true
  written : comment ≠ []
  noReturn : '\r' ∉ comment

/--
A root does not become a definition by what is put behind it.  If it has an
equals sign behind its first character, it ends there, and blanks would be a
source.  If it has none, the first one in the comment has a `#` or nothing
directly behind it.
-/
def StaysRoot (line blanks comment : List Char) : Prop :=
  if '=' ∈ (trim line).tail then blanks = []
  else ∀ c ∈ ((trimEnd comment).dropWhile (· ≠ '=')).tail.head?, c = '#'

theorem Line.ofText_of_spoken {line : List Char} (hsome : trim line ≠ [])
    (hhead : (trim line).head? ≠ some '#') :
    ofText line =
      match definition? (trim line) with
      | some (name, source) => .definition name source
      | none => .root (withoutComment (withoutReturn line)) := by
  unfold ofText
  split
  · contradiction
  · rename_i comment hcomment
    simp [hcomment] at hhead
  · rfl

section

variable {first : Char} {others blanks name source : List Char}

theorem notMem_blanks {c : Char} (hblanks : ∀ c ∈ blanks, isBlank c = true)
    (hc : isBlank c = false) : c ∉ blanks := by
  intro hmem
  rw [hblanks c hmem] at hc
  contradiction

private theorem definition?_commented_of_some (hplain : '#' ∉ others)
    (hblanks : ∀ c ∈ blanks, isBlank c = true) (comment : List Char)
    (h : definition? (first :: others) = some (name, source)) :
    definition? (first :: others ++ blanks ++ '#' :: comment) = some (name, source) := by
  rw [definition?_eq_some_iff] at h ⊢
  generalize hline : first :: others = line at h
  cases h with
  | @mk first more value back hmore hvalue hsome hback =>
      obtain ⟨rfl, rfl⟩ := List.cons.inj hline
      have hnil : back = [] := by
        rcases hback with rfl | ⟨comment, rfl⟩
        · rfl
        · simp at hplain
      have hsource : '#' ∉ value ++ blanks :=
        List.not_mem_append hvalue (notMem_blanks hblanks (by decide))
      have hdefines := Defines.mk first hmore hsource (by simp [hsome]) (.inr ⟨comment, rfl⟩)
      rw [trim_append_blank value hblanks] at hdefines
      simpa [hnil] using hdefines

private theorem definition?_commented_eq_none_iff (hplain : '#' ∉ others)
    (hblanks : ∀ c ∈ blanks, isBlank c = true) (comment : List Char)
    (h : definition? (first :: others) = none) :
    definition? (first :: others ++ blanks ++ '#' :: comment) = none ↔
      if '=' ∈ others then blanks = []
      else ∀ c ∈ (comment.dropWhile (· ≠ '=')).tail.head?, c = '#' := by
  have hblank : '=' ∉ blanks := notMem_blanks hblanks (by decide)
  obtain ⟨more, back, rfl, hmore, rfl | ⟨value, rfl⟩⟩ := exists_cut '=' others
  · -- the line has no equals sign, so that of a definition would be in the comment
    obtain ⟨front, back, rfl, hfront, hback⟩ := exists_cut '=' comment
    have hname : '=' ∉ more ++ blanks ++ '#' :: front := by simp [hmore, hblank, hfront]
    rw [dropWhile_cut hfront hback, if_neg (by simpa using hmore)]
    rcases hback with rfl | ⟨defined, rfl⟩
    · simpa using definition?_of_notMem first hname
    · obtain ⟨value, back, rfl, hvalue, hback⟩ := exists_cut '#' defined
      have hcut := definition?_cut first hname hvalue hback
      simp only [List.cons_append, List.append_assoc, List.append_nil] at hcut ⊢
      rw [hcut]
      cases value with
      | nil => rcases hback with rfl | ⟨others, rfl⟩ <;> simp
      | cons c value =>
          have hc : c ≠ '#' := fun heq => hvalue (heq ▸ List.mem_cons_self)
          simp [hc]
  · -- the line ends with its equals sign, and the blanks are what would be defined
    have hvalue : '#' ∉ value := by
      intro hmem
      simp [hmem] at hplain
    have hline := definition?_cut first hmore hvalue (.inl rfl)
    rw [List.append_nil, h] at hline
    obtain rfl : value = [] := by simpa using hline
    have hcut := definition?_cut first hmore (notMem_blanks hblanks (by decide))
      (.inr ⟨comment, rfl⟩)
    simp only [List.cons_append, List.append_assoc, List.nil_append] at hcut ⊢
    rw [hcut]
    simp

end

namespace Commentable

variable {line blanks comment : List Char}

theorem trim_ne_nil (h : Commentable line blanks comment) : trim line ≠ [] := fun hnil =>
  h.speaks (Line.ofText_eq_iff.mpr (.blank hnil))

theorem mem_of_mem_trim (h : Commentable line blanks comment) {c : Char} (hc : c ∈ trim line) :
    c ∈ line := by
  rw [trimEnd_trimStart h.ending] at hc
  exact (List.dropWhile_sublist _).subset hc

private theorem withoutReturn_line (h : Commentable line blanks comment) :
    withoutReturn line = line :=
  withoutReturn_eq_self fun hlast => absurd (h.ending _ hlast) (by decide)

private theorem withoutReturn_commented (h : Commentable line blanks comment) :
    withoutReturn (line ++ blanks ++ '#' :: comment) = line ++ blanks ++ '#' :: comment := by
  refine withoutReturn_eq_self fun hlast => ?_
  rw [List.getLast?_append_cons, List.getLast?_cons_of_ne_nil h.written] at hlast
  exact h.noReturn (List.mem_of_getLast? hlast)

private theorem withoutComment_line (h : Commentable line blanks comment) :
    withoutComment line = line :=
  withoutComment_eq_iff.mpr (.plain h.plain)

/-- The blanks in front of the comment go with it. -/
theorem withoutComment_commented (h : Commentable line blanks comment) :
    withoutComment (line ++ blanks ++ '#' :: comment) = line := by
  obtain ⟨c, others, rfl⟩ := List.exists_cons_of_ne_nil h.written
  have hfront : '#' ∉ line ++ blanks :=
    List.not_mem_append h.plain (notMem_blanks h.blank (by decide))
  rw [withoutComment_eq_iff.mpr (.comment c hfront), trimEnd_append_blank line h.blank,
    trimEnd_eq_self h.ending]

private theorem ofText_commented (h : Commentable line blanks comment)
    (hroot : ∀ source, Line.ofText line = .root source → StaysRoot line blanks comment) :
    Line.ofText (line ++ blanks ++ '#' :: comment) = Line.ofText line := by
  have htrim := trim_append_cons h.trim_ne_nil h.ending blanks (c := '#') (by decide) comment
  obtain ⟨first, others, hline⟩ := List.exists_cons_of_ne_nil h.trim_ne_nil
  have hfirst : first ≠ '#' := by
    rintro rfl
    exact h.plain (h.mem_of_mem_trim (by simp [hline]))
  have hothers : '#' ∉ others := fun hmem => h.plain (h.mem_of_mem_trim (by simp [hline, hmem]))
  have hread := Line.ofText_of_spoken h.trim_ne_nil (by simpa [hline] using hfirst)
  have hcommented : Line.ofText (line ++ blanks ++ '#' :: comment) = _ :=
    Line.ofText_of_spoken (by rw [htrim, hline]; simp) (by rw [htrim, hline]; simpa using hfirst)
  rw [hline, h.withoutReturn_line, h.withoutComment_line] at hread
  rw [htrim, hline, h.withoutReturn_commented, h.withoutComment_commented] at hcommented
  cases hdefinition : definition? (first :: others) with
  | some parts =>
      rw [hdefinition] at hread
      rw [hread, hcommented,
        definition?_commented_of_some hothers h.blank (trimEnd comment) hdefinition]
  | none =>
      rw [hdefinition] at hread
      have hstays := hroot line hread
      rw [StaysRoot, hline, List.tail_cons,
        ← definition?_commented_eq_none_iff hothers h.blank _ hdefinition] at hstays
      rw [hread, hcommented, hstays]

end Commentable

/--
A comment may be put behind a definition that has none, and behind a root that
stays a root with it.
-/
theorem load_commented {text other line blanks comment : List Char} {front back : List (List Char)}
    (h : Commentable line blanks comment)
    (hroot : ∀ source, Line.ofText line = .root source → StaysRoot line blanks comment)
    (htext : text.splitOn '\n' = front ++ line :: back)
    (hother : other.splitOn '\n' = front ++ (line ++ blanks ++ '#' :: comment) :: back) :
    load other = load text := by
  rw [load_eq_loadLines, load_eq_loadLines, htext, hother]
  apply loadLines_of_map_eq
  rw [List.map_append, List.map_append, List.map_cons, List.map_cons, h.ofText_commented hroot]

/-! The equals sign in the comment has a `#` behind it, so the root stays a root. -/

def rootText : List Char := " (C)V".toList

def remark : List Char := " é=# =x".toList

theorem load_remark :
    Commentable rootText ['\t'] remark ∧ StaysRoot rootText ['\t'] remark ∧
      load "V = a\n (C)V\t# é=# =x\nC = p".toList =
        .ok (.mk rootText [('C', .mk ['p'] []), ('V', .mk ['a'] [])]) := by
  have hlast : rootText.getLast? = some 'V' := by decide
  have hcommentable : Commentable rootText ['\t'] remark :=
    ⟨by decide, by decide, by simp [hlast, isBlank], by simp [isBlank], by decide, by decide⟩
  have hstays : StaysRoot rootText ['\t'] remark := by
    have hname : '=' ∉ (trim rootText).tail := by decide
    have hsource : ((trimEnd remark).dropWhile (· ≠ '=')).tail.head? = some '#' := by decide
    rw [StaysRoot, if_neg hname, hsource]
    simp
  have htext : "V = a\n (C)V\nC = p".toList.splitOn '\n' =
      ["V = a".toList] ++ rootText :: ["C = p".toList] := by decide
  have hother : "V = a\n (C)V\t# é=# =x\nC = p".toList.splitOn '\n' =
      ["V = a".toList] ++ (rootText ++ ['\t'] ++ '#' :: remark) :: ["C = p".toList] := by decide
  refine ⟨hcommentable, hstays, ?_⟩
  rw [load_commented hcommentable (fun _ _ => hstays) htext hother]
  rfl

/--
Not every root stays one: blanks can be the source of a definition, and the name
of a definition can have a `#` in it.
-/
theorem load_commented_root :
    Commentable ['a', '='] [' '] ['x'] ∧ load ['a', '='] = .ok (.mk ['a', '='] []) ∧
      load (['a', '='] ++ [' '] ++ '#' :: ['x']) = .error .missingRoot ∧
      Commentable ['a', 'b'] [] ['x', '=', 'y'] ∧ load ['a', 'b'] = .ok (.mk ['a', 'b'] []) ∧
      load (['a', 'b'] ++ [] ++ '#' :: ['x', '=', 'y']) =
        .error (.invalidName ['a', 'b', '#', 'x']) := by
  have hending : Commentable ['a', '='] [' '] ['x'] :=
    ⟨by decide, by decide, by simp [isBlank], by simp [isBlank], by decide, by decide⟩
  have hplain : Commentable ['a', 'b'] [] ['x', '=', 'y'] :=
    ⟨by decide, by decide, by simp [isBlank], by simp [isBlank], by decide, by decide⟩
  exact ⟨hending, by rfl, by rfl, hplain, by rfl, by rfl⟩

end Wordmill.Grammar
