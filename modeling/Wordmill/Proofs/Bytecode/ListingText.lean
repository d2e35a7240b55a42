import Wordmill.Bytecode.Listing
import Wordmill.Proofs.Text.Quoted

/-!
# The text of a listing

Whatever a line of a listing shows, there is no line end in it, so the lines of
the text are the lines that were rendered.
-/

namespace Wordmill

namespace Text

theorem newline_notMem_hex (width n : Nat) : '\n' ∉ hex width n := notMem_hex rfl width n

/-- A line end is shown as a backslash and a letter. -/
theorem newline_notMem_escape (c : Char) : '\n' ∉ escape c := by
  unfold escape
  split
  all_goals try decide
  rename_i hnewline _ _
  split
  · simpa using newline_notMem_hex 1 c.toNat
  · simpa using Ne.symm hnewline

private theorem newline_notMem_quote (text : List Char) : '\n' ∉ quote text := by
  simp [quote, newline_notMem_escape]

end Text

namespace Listing

theorem newline_notMem_renderAddress (target : Nat) : '\n' ∉ renderAddress target := by
  simpa [renderAddress] using Text.newline_notMem_hex 4 target

private theorem newline_notMem_renderEntries (entries : List Nat) :
    '\n' ∉ renderEntries entries := by
  induction entries with
  | nil => exact List.not_mem_nil
  | cons entry entries ih =>
      cases entries with
      | nil => exact newline_notMem_renderAddress entry
      | cons next entries =>
          simp only [renderEntries, List.mem_append, not_or]
          exact ⟨⟨newline_notMem_renderAddress entry, by decide⟩, ih⟩

private theorem newline_notMem_renderName (opcode : Opcode) : '\n' ∉ renderName opcode := by
  cases opcode <;> decide

theorem newline_notMem_renderColumn (opcode : Opcode) : '\n' ∉ renderColumn opcode := by
  cases opcode <;> decide

private theorem newline_notMem_render (line : Line) : '\n' ∉ line.render := by
  unfold Line.render
  cases line with
  | plain opcode => exact newline_notMem_renderName opcode
  | address opcode target =>
      simp only [List.mem_append, List.mem_cons, not_or]
      exact ⟨newline_notMem_renderColumn opcode, by decide, newline_notMem_renderAddress target⟩
  | put text length =>
      simp only [List.mem_append, List.mem_cons, not_or]
      exact ⟨newline_notMem_renderColumn .put, by decide, Text.newline_notMem_quote text⟩
  | table count entries =>
      simp only [List.mem_append, not_or]
      refine ⟨⟨⟨⟨by simp, ?_⟩, by simp⟩, newline_notMem_renderEntries entries⟩, by simp⟩
      exact Text.notMem_toDigits (by decide) (by decide) rfl count
  | byte value =>
      simp only [List.mem_append, not_or]
      exact ⟨by simp, Text.newline_notMem_hex 2 value.toNat⟩

/-- An entry of a listing without the line end behind it. -/
def lineText (entry : Nat × Line) : List Char :=
  Text.hex 4 entry.1 ++ ' ' :: ' ' :: entry.2.render

private theorem newline_notMem_lineText (entry : Nat × Line) : '\n' ∉ lineText entry := by
  simp [lineText, Text.newline_notMem_hex, newline_notMem_render]

private theorem renderLine_eq (offset : Nat) (line : Line) :
    renderLine offset line = lineText (offset, line) ++ ['\n'] := by
  simp [renderLine, lineText]

private theorem toList_foldl_renderLine (entries : List (Nat × Line)) (text : String) :
    (entries.foldl (fun text entry => text ++ String.ofList (renderLine entry.1 entry.2))
      text).toList = text.toList ++ Text.joinLines (entries.map lineText) := by
  induction entries generalizing text with
  | nil => simp [Text.joinLines]
  | cons entry entries ih =>
      rw [List.foldl_cons, ih, List.map_cons, Text.joinLines_cons, renderLine_eq]
      simp

theorem toList_listing (code : Bytecode) :
    (listing code).toList = Text.joinLines ((lines code).map lineText) :=
  toList_foldl_renderLine (lines code) ""

/-- One line of text for each entry of the listing, and none besides. -/
theorem splitOn_listing (code : Bytecode) :
    Text.splitOn '\n' (listing code).toList = (lines code).map lineText ++ [[]] := by
  rw [toList_listing]
  apply Text.splitOn_joinLines
  intro line hline
  obtain ⟨entry, -, rfl⟩ := List.mem_map.mp hline
  exact newline_notMem_lineText entry

end Listing

end Wordmill
