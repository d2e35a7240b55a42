import Wordmill.Proofs.Bytecode.Tiling

/-!
# Code recovered from its listing

A listing is read line by line: the word at the front tells what kind of line it is,
and the bytes come from the digits and the quoted text behind it.  Offsets are
passed over, and it does not matter how a table was found.
-/

namespace Wordmill

open Instruction Layout

/-! ## What a line says -/

def Opcode.named? (word : List Char) : Option Opcode :=
  [halt, jump, put, pick, call, ret].find? fun opcode => opcode.name.toList = word

namespace Listing

/-- The bytes of a line, malformed text apart. -/
def Line.bytes : Line → List UInt8
  | .plain opcode => [opcode.toByte]
  | .address opcode target => withAddress opcode target
  | .put text _ => Opcode.put.toByte :: Text.Utf8.encode text
  | .table count entries => shorts (count :: entries)
  | .byte value => [value]

/-- The count of a table and the entries shown, each behind an at sign. -/
def readTable (text : List Char) : List Nat :=
  match Text.splitOn '@' text with
  | [] => []
  | count :: entries => Text.readNumber 10 count :: entries.map (Text.readNumber 16)

def readOperand (word operand : List Char) : List UInt8 :=
  match Opcode.named? word with
  | some .halt => [Opcode.halt.toByte]
  | some .ret => [Opcode.ret.toByte]
  | some .put => Opcode.put.toByte :: Text.Utf8.encode (Text.unquote operand)
  | some opcode => withAddress opcode (Text.readNumber 16 operand)
  | none =>
      if word = ".table".toList then shorts (readTable operand)
      else [UInt8.ofNat (Text.readNumber 16 operand)]

/-- The bytes that a line of a listing stands for, its offset left out. -/
def readLine (text : List Char) : List UInt8 :=
  readOperand (text.takeWhile (· ≠ ' ')) (text.dropWhile (· ≠ ' '))

/-- The offset takes up a word and the two blanks behind it. -/
def readEntry (text : List Char) : List UInt8 := readLine ((text.dropWhile (· ≠ ' ')).drop 2)

/-- The code behind a listing. -/
def recover (text : String) : Bytecode :=
  ((Text.splitOn '\n' text.toList).dropLast.flatMap readEntry).toArray

/-- Every text that the sweep meets is well-formed. -/
def Legible (code : Bytecode) : Prop :=
  ∀ offset text length, (offset, .put text length) ∈ lines code →
    ∃ chars, (code.extract (offset + 1) (offset + 1 + length)).toList = Text.Utf8.encode chars

/-! ## Reading a line -/

theorem readLine_append {word : List Char} (hword : ' ' ∉ word) (rest : List Char) :
    readLine (word ++ ' ' :: rest) = readOperand word (' ' :: rest) := by
  rw [readLine, Text.takeWhile_cut hword (.inr ⟨rest, rfl⟩),
    Text.dropWhile_cut hword (.inr ⟨rest, rfl⟩)]

private theorem renderEntries_cons (entry : Nat) (entries : List Nat) :
    ∃ separator, '@' ∉ separator ∧ separator.filterMap Text.hexValue? = [] ∧
      renderEntries (entry :: entries) =
        '@' :: (Text.hex 4 entry ++ separator ++ renderEntries entries) := by
  cases entries with
  | nil => exact ⟨[], List.not_mem_nil, rfl, by simp [renderEntries, renderAddress]⟩
  | cons next entries =>
      exact ⟨", ".toList, by decide, by decide, by simp [renderEntries, renderAddress]⟩

/-- Behind each at sign but the last there are the digits of one entry. -/
theorem splitOn_renderEntries (entries : List Nat) {front : List Char} (hfront : '@' ∉ front) :
    ∃ head pieces, Text.splitOn '@' (front ++ (renderEntries entries ++ [']'])) = head :: pieces ∧
      head.filterMap Text.hexValue? = front.filterMap Text.hexValue? ∧
      pieces.map (Text.readNumber 16) = entries := by
  induction entries generalizing front with
  | nil =>
      refine ⟨front ++ [']'], [], ?_, ?_, rfl⟩
      · rw [Text.splitOn_eq]
        exact List.splitOn_eq_singleton (by simpa [renderEntries] using hfront)
      · rw [List.filterMap_append, show [']'].filterMap Text.hexValue? = [] from rfl,
          List.append_nil]
  | cons entry entries ih =>
      obtain ⟨separator, hat, hseparator, hrender⟩ := renderEntries_cons entry entries
      have hentry : '@' ∉ Text.hex 4 entry ++ separator := by
        simpa [hat] using Text.notMem_hex (show Text.hexValue? '@' = none from rfl) 4 entry
      obtain ⟨head, pieces, hsplit, hhead, hpieces⟩ := ih hentry
      refine ⟨front, head :: pieces, ?_, rfl, ?_⟩
      · rw [← hsplit, hrender, Text.splitOn_eq, Text.splitOn_eq, List.cons_append,
          List.append_assoc, List.splitOn_append_cons_self_of_not_mem hfront]
      · have hnumber : Text.readNumber 16 head = entry := by
          rw [Text.readNumber, hhead, ← Text.readNumber, Text.readNumber_append_right hseparator,
            Text.readNumber_hex]
        rw [List.map_cons, hnumber, hpieces]

private theorem readTable_render (count : Nat) (entries : List Nat) :
    readTable (' ' :: (Nat.toDigits 10 count ++ " -> [".toList ++ renderEntries entries ++ [']'])) =
      count :: entries := by
  have hfront : '@' ∉ [' '] ++ Nat.toDigits 10 count ++ " -> [".toList := by
    simpa using Text.notMem_toDigits (by decide) (by decide)
      (show Text.hexValue? '@' = none from rfl) count
  obtain ⟨head, pieces, hsplit, hhead, hpieces⟩ := splitOn_renderEntries entries hfront
  have hcount : Text.readNumber 10 head = count := by
    rw [Text.readNumber, hhead, ← Text.readNumber, Text.readNumber_append_right (by decide),
      Text.readNumber_append_left rfl, Text.readNumber_toDigits (by decide) (by decide)]
  have hshape : ' ' :: (Nat.toDigits 10 count ++ " -> [".toList ++ renderEntries entries ++ [']']) =
      [' '] ++ Nat.toDigits 10 count ++ " -> [".toList ++ (renderEntries entries ++ [']']) := by
    simp
  rw [readTable, hshape, hsplit]
  simp only [hcount, hpieces]

private theorem render_table (count : Nat) (entries : List Nat) :
    (Line.table count entries).render = ".table".toList ++
      ' ' :: (Nat.toDigits 10 count ++ " -> [".toList ++ renderEntries entries ++ [']']) := by
  have hword : ".table ".toList = ".table".toList ++ [' '] := by decide
  unfold Line.render
  simp only [hword, List.append_assoc, List.cons_append, List.nil_append]

private theorem render_byte (value : UInt8) :
    (Line.byte value).render = ".byte".toList ++ ' ' :: (['0', 'x'] ++ Text.hex 2 value.toNat) := by
  have hword : ".byte 0x".toList = ".byte".toList ++ [' ', '0', 'x'] := by decide
  unfold Line.render
  simp only [hword, List.append_assoc, List.cons_append]

theorem blank_notMem_renderName (opcode : Opcode) : ' ' ∉ renderName opcode := by
  cases opcode <;> decide

/-- Whatever a line stands for, its text is read back as the bytes that the line tells. -/
theorem readLine_render {line : Line} {own : List UInt8} (h : line.Spells own) :
    readLine line.render = line.bytes := by
  cases h with
  | @plain opcode hopcode =>
      simp only [List.mem_cons, List.not_mem_nil, or_false] at hopcode
      obtain rfl | rfl := hopcode <;> decide
  | @address opcode target hopcode _ =>
      have hnumber : Text.readNumber 16 (' ' :: renderAddress target) = target :=
        Text.readNumber_append_hex [' ', '@'] (by decide) 4 target
      simp only [List.mem_cons, List.not_mem_nil, or_false] at hopcode
      have hshape : (Line.address opcode target).render =
          renderName opcode ++ ' ' :: renderAddress target := by
        obtain rfl | rfl | rfl := hopcode <;> rfl
      rw [hshape, readLine_append (blank_notMem_renderName opcode)]
      obtain rfl | rfl | rfl := hopcode
      all_goals exact congrArg (withAddress _) hnumber
  | @put lead tail _ =>
      have htext := Text.unquote_quote (show '"' ∉ [' ', ' '] by decide)
        (Text.Utf8.decodeLossy (lead :: tail))
      refine (readLine_append (blank_notMem_renderName .put) _).trans ?_
      exact congrArg (fun text => Opcode.put.toByte :: Text.Utf8.encode text) htext
  | @table count entries _ _ =>
      rw [render_table, readLine_append (by decide)]
      exact congrArg shorts (readTable_render count entries)
  | byte value =>
      have hvalue : Text.readNumber 16 ([' ', '0', 'x'] ++ Text.hex 2 value.toNat) = value.toNat :=
        Text.readNumber_append_hex [' ', '0', 'x'] (by decide) 2 value.toNat
      rw [render_byte, readLine_append (by decide)]
      refine (congrArg (fun n => [UInt8.ofNat n]) hvalue).trans ?_
      rw [UInt8.ofNat_toNat]
      rfl

/-! ## Reading all lines -/

variable {code : Bytecode}

private theorem readEntry_lineText (entry : Nat × Line) :
    readEntry (lineText entry) = readLine entry.2.render := by
  have hoffset : ' ' ∉ Text.hex 4 entry.1 := Text.notMem_hex rfl 4 entry.1
  rw [readEntry, lineText, Text.dropWhile_cut hoffset (.inr ⟨_, rfl⟩)]
  rfl

/-- Nothing but the lines is needed where the lines tell their bytes. -/
theorem Tiles.eq_flatMap {offset : Nat} {lines : List (Nat × Line)} {bytes : List UInt8}
    (h : Tiles offset lines bytes)
    (htells : ∀ front own back place line, (place, line) ∈ lines →
      bytes = front ++ (own ++ back) → offset + front.length = place → line.Spells own →
      own = line.bytes) :
    bytes = lines.flatMap (·.2.bytes) := by
  induction h with
  | nil => rfl
  | @cons offset line own rest lines hspells _ ih =>
      have hown := htells [] own rest offset line List.mem_cons_self rfl rfl hspells
      rw [List.flatMap_cons, ← hown, ← ih]
      intro front other back place next hmem hrest hplace hnext
      refine htells (own ++ front) other back place next (List.mem_cons_of_mem _ hmem)
        (by simp [hrest]) ?_ hnext
      rw [List.length_append, hspells.length_eq, ← Nat.add_assoc, hplace]

/-- A well-formed text is told by the line that shows it. -/
theorem eq_bytes_of_legible (hlegible : Legible code) {front own back : List UInt8} {line : Line}
    (hline : (front.length, line) ∈ lines code) (hcode : code.toList = front ++ (own ++ back))
    (h : line.Spells own) : own = line.bytes := by
  cases h with
  | plain | address | table | byte => rfl
  | @put lead tail hlength =>
      obtain ⟨chars, hchars⟩ := hlegible _ _ _ hline
      have hspan : code.toList = (front ++ [Opcode.put.toByte]) ++ (lead :: tail ++ back) := by
        simpa using hcode
      have hoperand := extract_middle hspan
      rw [List.length_append, List.length_singleton, List.length_cons, hlength, hchars] at hoperand
      obtain ⟨c, hc⟩ := Text.Utf8.eq_utf8EncodeChar_of_encode hoperand hlength
      rw [Line.bytes, hc, Text.Utf8.decodeLossy_utf8EncodeChar, Text.Utf8.encode,
        List.flatMap_singleton]

theorem recover_eq (hlegible : Legible code) : recover (listing code) = code := by
  have htiles := tiles_lines code
  have hcode : code.toList = (lines code).flatMap (·.2.bytes) := by
    apply htiles.eq_flatMap
    rintro front own back place line hline hbytes hplace hspells
    rw [Nat.zero_add] at hplace
    exact eq_bytes_of_legible hlegible (hplace ▸ hline) hbytes hspells
  have hread : (lines code).flatMap (fun entry => readEntry (lineText entry)) = code.toList := by
    rw [hcode]
    apply List.flatMap_congr
    intro entry hentry
    obtain ⟨k, hk⟩ := List.mem_iff_getElem?.mp hentry
    obtain ⟨-, front, own, back, -, -, hspells⟩ := htiles.spells_getElem? hk
    rw [readEntry_lineText, readLine_render hspells]
  rw [recover, splitOn_listing, List.dropLast_concat, List.flatMap_map, hread,
    Array.toArray_toList]

/-! ## Compiled code -/

/-- A text that is shown was assembled from one character. -/
theorem text_of_mem_instructionLines {startOf : Char → Nat} {offset table place length : Nat}
    {text : List Char} {instructions : List Instruction}
    (h : (place, .put text length) ∈ instructionLines startOf offset table instructions) :
    ∃ c before after, length = c.utf8Size ∧ offset + List.length before = place ∧
      link startOf table instructions =
        before ++ (Opcode.put.toByte :: (String.utf8EncodeChar c ++ after)) := by
  induction instructions generalizing offset table with
  | nil => contradiction
  | cons instruction instructions ih =>
      rcases List.mem_cons.mp h with h | h
      · cases instruction with
        | put c =>
            cases h
            exact ⟨c, [], _, rfl, rfl, rfl⟩
        | halt | ret | jump | call | pick => cases h
      · obtain ⟨c, before, after, hlength, hplace, hlink⟩ := ih h
        refine ⟨c, instruction.bytes startOf table ++ before, after, hlength, ?_, ?_⟩
        · rw [List.length_append, length_bytes, ← Nat.add_assoc, hplace]
        · rw [link, hlink, List.append_assoc]

private theorem legible_of_compile (definitions : Dictionary Pattern) {pattern : Pattern}
    (h : compile pattern definitions = .ok code) : Legible code := by
  intro place text length hline
  rw [lines_eq_programLines definitions h] at hline
  obtain ⟨-, hcode⟩ := (compile_eq_ok_iff definitions).mp h
  rcases List.mem_append.mp hline with hline | hline
  · obtain ⟨c, before, after, rfl, hplace, hlink⟩ := text_of_mem_instructionLines hline
    have hspan : code.toList = (before ++ [Opcode.put.toByte]) ++ (String.utf8EncodeChar c ++
        (after ++ (program definitions pattern).flatMap Layout.table)) := by
      rw [hcode, assemble, hlink]
      simp
    have hoperand := extract_middle hspan
    rw [List.length_append, List.length_singleton, String.length_utf8EncodeChar,
      show before.length = place by omega] at hoperand
    exact ⟨[c], by rw [hoperand, Text.Utf8.encode, List.flatMap_singleton]⟩
  · obtain ⟨starts, -, htable⟩ := exists_of_mem_tableLines hline
    contradiction

/--
What a listing shows determines the code wherever all its text is well-formed: the code is
recovered from the listing, so no two such codes have one listing.  All compiled
code is such.
-/
theorem recover_listing :
    (∀ code, Legible code → recover (listing code) = code) ∧
      (∀ first second, Legible first → Legible second → listing first = listing second →
        first = second) ∧
      ∀ pattern definitions code, compile pattern definitions = .ok code → Legible code := by
  refine ⟨fun _ => recover_eq, ?_, fun _ definitions _ => legible_of_compile definitions⟩
  intro first second hfirst hsecond h
  rw [← recover_eq hfirst, h, recover_eq hsecond]

/-- A line end as text, a table that the end cuts off, and a call without its address. -/
def severed : Bytecode := #[3, 0, 5, 2, 10, 0, 2, 0, 3, 4]

theorem lines_severed :
    lines severed =
      [(0, .address .pick 5), (3, .put ['\n'] 1), (5, .table 2 [3]), (9, .byte 4)] := by
  have hsize : severed.size ≤ 10 := by decide
  rw [lines,
    sweep_of_line rfl (show lineAt severed _ _ 3 = .address .pick 5 by simp [lineAt]; rfl),
    sweep_of_line rfl (show lineAt severed _ _ 2 = .put ['\n'] 1 by
      simp [lineAt, Line.note]; rfl),
    sweep_of_line rfl (show lineAt severed _ _ 0 = .table 2 [3] by
      simp [lineAt, Line.note]; rfl),
    sweep_of_line rfl (show lineAt severed _ _ 4 = .byte 4 by simp [lineAt, Line.note]; rfl)]
  exact congrArg Array.toList (sweep_of_le hsize _)

theorem recover_severed :
    (Text.splitOn '\n' (listing severed).toList).map String.ofList =
        ["0000  PICK @0005", "0003  PUT  \"\\n\"", "0005  .table 2 -> [@0003]", "0009  .byte 0x04",
          ""] ∧
      Legible severed ∧ recover (listing severed) = severed ∧
      compile (.quoted ['é']) [] = .ok #[2, 0xC3, 0xA9, 0] ∧
      recover (listing #[2, 0xC3, 0xA9, 0]) = #[2, 0xC3, 0xA9, 0] := by
  obtain ⟨hrecover, -, hcompiled⟩ := recover_listing
  have hlegible : Legible severed := by
    intro offset text length hline
    obtain ⟨rfl, rfl, rfl⟩ : offset = 3 ∧ text = ['\n'] ∧ length = 1 := by
      simpa [lines_severed] using hline
    exact ⟨['\n'], by decide⟩
  have hcode : compile (.quoted ['é']) [] = .ok #[2, 0xC3, 0xA9, 0] := by
    rw [compile_eq, assemble, compileFault, program, subroutines_nil]
    rfl
  refine ⟨?_, hlegible, hrecover _ hlegible, hcode, hrecover _ (hcompiled _ _ _ hcode)⟩
  rw [splitOn_listing, lines_severed]
  decide

end Listing

end Wordmill
