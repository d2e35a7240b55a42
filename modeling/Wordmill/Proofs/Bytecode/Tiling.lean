import Wordmill.Proofs.Bytecode.Disassembly
import Wordmill.Proofs.Bytecode.Overflow

/-!
# Listings of any bytes

Whatever the bytes of a buffer, the lines of its listing share them out among
themselves: each line stands for some of them, and the next line begins where
they end.  Addresses may lead anywhere, since the sweep never follows one; it only
reads a table where one starts.
-/

namespace Wordmill

open Instruction Layout Listing

variable {code : Bytecode} {offset : Nat} {byte : UInt8}

/-! ## What has been read -/

theorem drop_of_some (h : code[offset]? = some byte) :
    code.toList.drop offset = byte :: code.toList.drop (offset + 1) := by
  obtain ⟨hlt, rfl⟩ := Array.getElem?_eq_some_iff.mp h
  exact List.drop_eq_getElem_cons (by simpa using hlt)

/-- The bytes between two others. -/
theorem extract_middle {front own back : List UInt8} (h : code.toList = front ++ (own ++ back)) :
    (code.extract front.length (front.length + own.length)).toList = own := by
  rw [Array.toList_extract, List.extract_eq_take_drop, h, List.drop_left,
    Nat.add_sub_cancel_left, List.take_left]

/-- What stands at an offset stands behind as many bytes. -/
theorem exists_front {own back : List UInt8} (hoffset : offset ≤ code.size)
    (h : code.toList.drop offset = own ++ back) :
    ∃ front : List UInt8, front.length = offset ∧ code = (front ++ (own ++ back)).toArray := by
  refine ⟨code.toList.take offset, ?_, ?_⟩
  · rw [List.length_take, Array.length_toList, Nat.min_eq_left hoffset]
  · rw [← h, List.take_append_drop, Array.toArray_toList]

theorem exists_shortBytes (high low : UInt8) :
    ∃ n ≤ 0xFFFF, Operand.shortBytes n = (high, low) ∧ high.toNat * 256 + low.toNat = n := by
  have hhigh := high.toNat_lt
  have hlow := low.toNat_lt
  refine ⟨high.toNat * 256 + low.toNat, by omega, ?_, rfl⟩
  have hquotient : (high.toNat * 256 + low.toNat) / 256 = high.toNat := by omega
  have hremainder : (high.toNat * 256 + low.toNat) % 2 ^ 8 = low.toNat := by omega
  rw [Operand.shortBytes, hquotient, UInt8.ofNat_toNat]
  refine congrArg _ (UInt8.toNat_inj.mp ?_)
  rw [UInt8.toNat_ofNat', hremainder]

theorem drop_of_decodeShort {n : Nat} (h : Operand.decodeShort code offset = some n) :
    n ≤ 0xFFFF ∧ code.toList.drop offset = shorts [n] ++ code.toList.drop (offset + 2) := by
  unfold Operand.decodeShort at h
  split at h
  · rename_i high low hhigh hlow
    obtain ⟨m, hm, hbytes, hvalue⟩ := exists_shortBytes high low
    rw [hvalue] at h
    cases h
    refine ⟨hm, ?_⟩
    rw [drop_of_some hhigh, drop_of_some hlow]
    simp [shorts, hbytes]
  · contradiction

theorem lt_of_decodeShort_eq_none (h : Operand.decodeShort code offset = none) :
    code.size < offset + 2 := by
  by_contra hroom
  have hhigh : code[offset]? = some code[offset] := Array.getElem?_eq_getElem _
  have hlow : code[offset + 1]? = some code[offset + 1] := Array.getElem?_eq_getElem _
  rw [Operand.decodeShort, hhigh, hlow] at h
  contradiction

theorem drop_of_decodeText {text : List Char} {length : Nat}
    (h : Operand.decodeText code offset = some (text, length)) :
    ∃ lead tail, tail.length + 1 = Text.Utf8.spanLength lead ∧
      length = Text.Utf8.spanLength lead ∧ text = Text.Utf8.decodeLossy (lead :: tail) ∧
      code.toList.drop offset = lead :: tail ++ code.toList.drop (offset + length) := by
  unfold Operand.decodeText at h
  split at h
  · contradiction
  · rename_i lead hlead
    simp only [Option.ite_none_right_eq_some, Option.some.injEq, Prod.mk.injEq] at h
    obtain ⟨hroom, htext, hlength⟩ := h
    obtain ⟨others, hothers⟩ := Nat.exists_eq_add_one.mpr (Text.Utf8.spanLength_pos lead)
    have hspan : (code.extract offset (offset + Text.Utf8.spanLength lead)).toList =
        lead :: (code.toList.drop (offset + 1)).take others := by
      rw [Array.toList_extract, List.extract_eq_take_drop, Nat.add_sub_cancel_left,
        drop_of_some hlead, hothers, List.take_succ_cons]
    refine ⟨lead, (code.toList.drop (offset + 1)).take others, ?_, hlength.symm, ?_, ?_⟩
    · rw [List.length_take, List.length_drop, Array.length_toList]
      omega
    · rw [← htext, hspan]
    · have hrest : code.toList.drop (offset + length) =
          (code.toList.drop (offset + 1)).drop others := by
        rw [List.drop_drop, ← hlength, hothers, Nat.add_assoc, Nat.add_comm 1]
      rw [drop_of_some hlead, hrest, List.cons_append, List.take_append_drop]

/-- An even number of bytes spells half as many numbers. -/
theorem exists_shorts (n : Nat) (bytes : List UInt8) (h : 2 * n ≤ bytes.length) :
    ∃ numbers, numbers.length = n ∧ (∀ m ∈ numbers, m ≤ 0xFFFF) ∧
      bytes = shorts numbers ++ bytes.drop (2 * n) := by
  induction n generalizing bytes with
  | zero => exact ⟨[], rfl, by simp, rfl⟩
  | succ n ih =>
      match bytes with
      | [] | [_] => simp only [List.length_cons, List.length_nil] at h; omega
      | high :: low :: bytes =>
          obtain ⟨first, hfirst, hbytes, -⟩ := exists_shortBytes high low
          have hlonger : 2 * n ≤ bytes.length := by
            simp only [List.length_cons] at h
            omega
          obtain ⟨numbers, hlength, hnumbers, hrest⟩ := ih bytes hlonger
          refine ⟨first :: numbers, by rw [List.length_cons, hlength],
            List.forall_mem_cons.mpr ⟨hfirst, hnumbers⟩, ?_⟩
          have hshorts : shorts (first :: numbers) = high :: low :: shorts numbers := by
            simp [shorts, hbytes]
          rw [hshorts, show 2 * (n + 1) = 2 * n + 1 + 1 by omega, List.drop_succ_cons,
            List.drop_succ_cons, List.cons_append, List.cons_append, ← hrest]

namespace Listing

/-! ## The bytes of a line -/

/--
The bytes that a line stands for.  Of malformed text the line shows less than
there was, so the line alone does not tell its bytes.
-/
inductive Line.Spells : Line → List UInt8 → Prop
  | plain {opcode : Opcode} : opcode ∈ [.halt, .ret] → Spells (.plain opcode) [opcode.toByte]
  | address {opcode : Opcode} {target : Nat} : opcode ∈ [.jump, .pick, .call] → target ≤ 0xFFFF →
      Spells (.address opcode target) (withAddress opcode target)
  | put {lead : UInt8} {tail : List UInt8} : tail.length + 1 = Text.Utf8.spanLength lead →
      Spells (.put (Text.Utf8.decodeLossy (lead :: tail)) (Text.Utf8.spanLength lead))
        (Opcode.put.toByte :: lead :: tail)
  | table {count : Nat} {entries : List Nat} : entries.length ≤ count →
      (∀ n ∈ count :: entries, n ≤ 0xFFFF) →
      Spells (.table count entries) (shorts (count :: entries))
  | byte (byte : UInt8) : Spells (.byte byte) [byte]

theorem Line.Spells.length_eq {line : Line} {bytes : List UInt8} (h : line.Spells bytes) :
    bytes.length = line.size := by
  cases h with
  | plain | address | byte => rfl
  | put hlength => simp only [List.length_cons, size]; omega
  | table => simp only [length_shorts, List.length_cons, size]; omega

/-- The line shown at an offset stands for bytes that are there. -/
def Shows (code : Bytecode) (offset : Nat) (line : Line) : Prop :=
  ∃ bytes, line.Spells bytes ∧
    code.toList.drop offset = bytes ++ code.toList.drop (offset + line.size)

theorem Shows.le {line : Line} (h : Shows code offset line) (hoffset : offset ≤ code.size) :
    offset + line.size ≤ code.size := by
  obtain ⟨bytes, hspells, hdrop⟩ := h
  have hlength := congrArg List.length hdrop
  simp only [List.length_drop, List.length_append, hspells.length_eq,
    Array.length_toList] at hlength
  omega

theorem shows_byte (h : code[offset]? = some byte) : Shows code offset (.byte byte) :=
  ⟨[byte], .byte byte, drop_of_some h⟩

/-- The entries for which there is room, and the bytes that they are read from. -/
theorem exists_tableAt {count : Nat} (hread : Operand.decodeShort code offset = some count) :
    ∃ entries, (∀ byte, tableAt code offset byte = .table count entries) ∧
      entries.length = min count ((code.size - (offset + 2)) / 2) ∧
      (∀ n ∈ count :: entries, n ≤ 0xFFFF) ∧
      code.toList.drop offset = shorts (count :: entries) ++
        code.toList.drop (offset + (Line.table count entries).size) := by
  obtain ⟨hcount, hdrop⟩ := drop_of_decodeShort hread
  have hroom := (Operand.decodeShort_lt hread).2
  obtain ⟨entries, hlength, hentries, hrest⟩ :=
    exists_shorts (min count ((code.size - (offset + 2)) / 2)) (code.toList.drop (offset + 2))
      (by rw [List.length_drop, Array.length_toList]; omega)
  have hnumbers : ∀ n ∈ count :: entries, n ≤ 0xFFFF :=
    List.forall_mem_cons.mpr ⟨hcount, hentries⟩
  have hbytes : code.toList.drop offset = shorts (count :: entries) ++
      code.toList.drop (offset + (Line.table count entries).size) := by
    rw [hdrop, hrest, List.drop_drop, Line.size, hlength, ← Nat.add_assoc, ← List.append_assoc]
    rfl
  obtain ⟨front, rfl, hcode⟩ := exists_front (by omega) hbytes
  exact ⟨entries, tableAt_shorts front _ (findSome?_addressFault hnumbers) hcode hlength.symm,
    hlength, hnumbers, hbytes⟩

private theorem shows_tableAt (h : code[offset]? = some byte) :
    Shows code offset (tableAt code offset byte) := by
  cases hread : Operand.decodeShort code offset with
  | none =>
      rw [tableAt, hread]
      exact shows_byte h
  | some count =>
      obtain ⟨entries, hline, hlength, hnumbers, hbytes⟩ := exists_tableAt hread
      rw [hline]
      exact ⟨_, .table (by omega) hnumbers, hbytes⟩

private theorem shows_address {opcode : Opcode} {target : Nat}
    (hopcode : opcode ∈ [.jump, .pick, .call]) (h : code[offset]? = some opcode.toByte)
    (hread : Operand.decodeShort code (offset + 1) = some target) :
    Shows code offset (.address opcode target) := by
  obtain ⟨htarget, hdrop⟩ := drop_of_decodeShort hread
  refine ⟨_, .address hopcode htarget, ?_⟩
  rw [drop_of_some h, hdrop]
  rfl

private theorem shows_instructionAt (h : code[offset]? = some byte) :
    Shows code offset (instructionAt code offset byte) := by
  unfold instructionAt
  cases hopcode : Opcode.ofByte? byte with
  | none => exact shows_byte h
  | some opcode =>
      have hbyte := Opcode.toByte_of_ofByte? hopcode
      cases opcode with
      | halt | ret => exact ⟨_, .plain (by simp), by rw [drop_of_some h, ← hbyte]; rfl⟩
      | put =>
          cases hread : Operand.decodeText code (offset + 1) with
          | none => exact shows_byte h
          | some entry =>
              obtain ⟨text, length⟩ := entry
              obtain ⟨lead, tail, hlength, rfl, rfl, hdrop⟩ := drop_of_decodeText hread
              refine ⟨_, .put hlength, ?_⟩
              rw [drop_of_some h, hdrop, ← hbyte, Nat.add_assoc]
              rfl
      | jump | pick | call =>
          cases hread : Operand.decodeShort code (offset + 1) with
          | none => exact shows_byte h
          | some target => exact shows_address (by simp) (hbyte ▸ h) hread

theorem shows_lineAt (h : code[offset]? = some byte) (tables : Std.HashSet Nat) :
    Shows code offset (lineAt code tables offset byte) := by
  unfold lineAt
  split
  · exact shows_tableAt h
  · exact shows_instructionAt h

/-! ## What is shown where -/

/-- A pick in front of `offset` has its table there. -/
def Marked (entries : List (Nat × Line)) (offset : Nat) : Prop :=
  ∃ place < offset, (place, .address .pick offset) ∈ entries

/--
Why a line is shown at an offset: a table where one is marked, with as many of its
entries as there is room for, elsewhere the instruction that begins there, and a byte
only where the end cuts off the count or where no instruction begins.
-/
def Line.Due (code : Bytecode) (offset : Nat) (marked : Prop) : Line → Prop
  | .plain _ | .address _ _ | .put _ _ => ¬ marked
  | .table count entries =>
      marked ∧ entries.length = min count ((code.size - (offset + 2)) / 2)
  | .byte _ =>
      (marked ∧ code.size < offset + 2) ∨
        (¬ marked ∧ ∀ (line : Line) (own : List UInt8), line.isInstruction = true →
          line.Spells own → ¬ own <+: code.toList.drop offset)

private theorem due_tableAt {marked : Prop} (hmarked : marked) (byte : UInt8) :
    (tableAt code offset byte).Due code offset marked := by
  cases hread : Operand.decodeShort code offset with
  | none =>
      rw [tableAt, hread]
      exact .inl ⟨hmarked, lt_of_decodeShort_eq_none hread⟩
  | some count =>
      obtain ⟨entries, hline, hlength, -, -⟩ := exists_tableAt hread
      rw [hline]
      exact ⟨hmarked, hlength⟩

/-- An instruction is shown wherever its bytes stand. -/
theorem instructionAt_of_spells {line : Line} {own : List UInt8}
    (hinstruction : line.isInstruction = true) (h : line.Spells own) (front back : List UInt8)
    (hcode : code = (front ++ (own ++ back)).toArray) :
    ∃ byte, code[front.length]? = some byte ∧ instructionAt code front.length byte = line := by
  cases h with
  | @plain opcode hopcode =>
      subst hcode
      refine ⟨_, getElem?_opcode front back opcode, ?_⟩
      simp only [List.mem_cons, List.not_mem_nil, or_false] at hopcode
      obtain rfl | rfl := hopcode <;> rfl
  | @address opcode target hopcode htarget =>
      subst hcode
      refine ⟨_, getElem?_opcode front _ opcode, ?_⟩
      have hread := decodeShort_withAddress front back opcode htarget
      simp only [List.mem_cons, List.not_mem_nil, or_false] at hopcode
      obtain rfl | rfl | rfl := hopcode <;> simp [instructionAt, hread]
  | @put lead tail hlength =>
      have hput : code[front.length]? = some Opcode.put.toByte := by simp [hcode]
      have hlead : code[front.length + 1]? = some lead := by simp [hcode]
      have hsize : front.length + 1 + Text.Utf8.spanLength lead ≤ code.size := by
        simp only [hcode, ← hlength, List.size_toArray, List.length_append, List.length_cons]
        omega
      have hspan : code.toList = (front ++ [Opcode.put.toByte]) ++ (lead :: tail ++ back) := by
        simp [hcode]
      have hoperand := extract_middle hspan
      rw [List.length_append, List.length_singleton, List.length_cons, hlength] at hoperand
      have hread : Operand.decodeText code (front.length + 1) =
          some (Text.Utf8.decodeLossy (lead :: tail), Text.Utf8.spanLength lead) := by
        simp only [Operand.decodeText, hlead, if_pos hsize, hoperand]
      exact ⟨_, hput, by simp [instructionAt, hread]⟩
  | table | byte => contradiction

private theorem isInstruction_instructionAt (code : Bytecode) (offset : Nat) (byte : UInt8) :
    (instructionAt code offset byte).isInstruction = true ∨
      instructionAt code offset byte = .byte byte := by
  unfold instructionAt
  cases Opcode.ofByte? byte with
  | none => exact .inr rfl
  | some opcode =>
      cases opcode with
      | halt | ret => exact .inl rfl
      | put =>
          cases Operand.decodeText code (offset + 1) with
          | none => exact .inr rfl
          | some entry => exact .inl rfl
      | jump | pick | call =>
          cases Operand.decodeShort code (offset + 1) with
          | none => exact .inr rfl
          | some target => exact .inl rfl

private theorem due_instructionAt {marked : Prop} (hmarked : ¬ marked)
    (h : code[offset]? = some byte) :
    (instructionAt code offset byte).Due code offset marked := by
  rcases isInstruction_instructionAt code offset byte with hline | hline
  · generalize instructionAt code offset byte = line at hline
    cases line with
    | plain | address | put => exact hmarked
    | table | byte => contradiction
  · rw [hline]
    refine .inr ⟨hmarked, ?_⟩
    rintro line own hinstruction hspells ⟨back, hback⟩
    obtain ⟨hlt, -⟩ := Array.getElem?_eq_some_iff.mp h
    obtain ⟨front, rfl, hcode⟩ := exists_front (Nat.le_of_lt hlt) hback.symm
    obtain ⟨first, hfirst, hshown⟩ := instructionAt_of_spells hinstruction hspells front back hcode
    cases h.symm.trans hfirst
    rw [hline] at hshown
    subst hshown
    contradiction

private theorem due_lineAt {marked : Prop} {tables : Std.HashSet Nat}
    (h : code[offset]? = some byte) (hmarked : offset ∈ tables ↔ marked) :
    (lineAt code tables offset byte).Due code offset marked := by
  unfold lineAt
  split
  · rename_i hknown
    exact due_tableAt (hmarked.mp (Std.HashSet.contains_iff_mem.mp hknown)) byte
  · rename_i hunknown
    exact due_instructionAt (fun hmem => hunknown
      (Std.HashSet.contains_iff_mem.mpr (hmarked.mpr hmem))) h

/-- What the sweep knows when it has come to an offset. -/
structure Swept (code : Bytecode) (offset : Nat) (tables : Std.HashSet Nat)
    (entries : List (Nat × Line)) : Prop where
  known : ∀ target, target ∈ tables ↔ ∃ place, (place, .address .pick target) ∈ entries
  before : ∀ entry ∈ entries, entry.1 < offset
  due : ∀ entry ∈ entries, entry.2.Due code entry.1 (Marked entries entry.1)

private theorem mem_note_iff {line : Line} {tables : Std.HashSet Nat} {target : Nat} :
    target ∈ line.note tables ↔ line = .address .pick target ∨ target ∈ tables := by
  cases line with
  | address opcode place => cases opcode <;> simp [Line.note]
  | plain | put | table | byte => simp [Line.note]

/-- Later lines mark nothing in front of them. -/
theorem marked_concat {entries : List (Nat × Line)} {place : Nat} (h : place ≤ offset)
    (line : Line) : Marked (entries ++ [(offset, line)]) place ↔ Marked entries place := by
  constructor
  · rintro ⟨pick, hlt, hmem⟩
    rcases List.mem_append.mp hmem with hmem | hmem
    · exact ⟨pick, hlt, hmem⟩
    · cases List.mem_singleton.mp hmem
      omega
  · rintro ⟨pick, hlt, hmem⟩
    exact ⟨pick, hlt, List.mem_append_left _ hmem⟩

theorem Swept.step {tables : Std.HashSet Nat} {entries : List (Nat × Line)}
    (h : Swept code offset tables entries) (hbyte : code[offset]? = some byte) :
    Swept code (offset + (lineAt code tables offset byte).size)
      ((lineAt code tables offset byte).note tables)
      (entries ++ [(offset, lineAt code tables offset byte)]) := by
  have hpos := (lineAt code tables offset byte).size_pos
  have hmarked : offset ∈ tables ↔ Marked entries offset := by
    rw [h.known]
    exact ⟨fun ⟨place, hmem⟩ => ⟨place, h.before _ hmem, hmem⟩,
      fun ⟨place, _, hmem⟩ => ⟨place, hmem⟩⟩
  have hline := due_lineAt hbyte hmarked
  generalize lineAt code tables offset byte = line at hpos hline
  refine ⟨fun target => ?_, ?_, ?_⟩
  · rw [mem_note_iff, h.known]
    constructor
    · rintro (rfl | ⟨place, hmem⟩)
      · exact ⟨offset, by simp⟩
      · exact ⟨place, List.mem_append_left _ hmem⟩
    · rintro ⟨place, hmem⟩
      rcases List.mem_append.mp hmem with hmem | hmem
      · exact .inr ⟨place, hmem⟩
      · cases List.mem_singleton.mp hmem
        exact .inl rfl
  · refine List.forall_mem_append.mpr ⟨fun entry hentry => ?_, by simpa using hpos⟩
    have := h.before entry hentry
    omega
  · refine List.forall_mem_append.mpr ⟨fun entry hentry => ?_, ?_⟩
    · rw [marked_concat (Nat.le_of_lt (h.before entry hentry))]
      exact h.due entry hentry
    · simpa [marked_concat (Nat.le_refl offset)] using hline

private theorem swept_sweep {tables : Std.HashSet Nat} {lines : Array (Nat × Line)}
    (h : Swept code offset tables lines.toList) :
    ∃ last known, Swept code last known (sweep code offset tables lines).toList := by
  fun_induction sweep code offset tables lines with
  | case1 offset tables lines hlt line ih =>
      apply ih
      rw [Array.toList_push]
      exact h.step (Array.getElem?_eq_getElem hlt)
  | case2 offset tables lines _ => exact ⟨offset, tables, h⟩

private theorem due_lines (code : Bytecode) :
    ∀ entry ∈ lines code, entry.2.Due code entry.1 (Marked (lines code) entry.1) := by
  have hstart : Swept code 0 ∅ (#[] : Array (Nat × Line)).toList := ⟨by simp, by simp, by simp⟩
  obtain ⟨last, known, hswept⟩ := swept_sweep hstart
  exact hswept.due

/-! ## The sweep -/

/-- Lines from `offset` on that share `bytes` out among themselves. -/
inductive Tiles : Nat → List (Nat × Line) → List UInt8 → Prop
  | nil (offset : Nat) : Tiles offset [] []
  | cons {offset : Nat} {line : Line} {bytes rest : List UInt8} {lines : List (Nat × Line)} :
      line.Spells bytes → Tiles (offset + line.size) lines rest →
      Tiles offset ((offset, line) :: lines) (bytes ++ rest)

/-- Whatever is known of tables, what is left of the code is shared out. -/
theorem tiles_sweep (code : Bytecode) (offset : Nat) (tables : Std.HashSet Nat)
    (lines : Array (Nat × Line)) :
    ∃ shown, (sweep code offset tables lines).toList = lines.toList ++ shown ∧
      Tiles offset shown (code.toList.drop offset) := by
  fun_induction sweep code offset tables lines with
  | case1 offset tables lines h line ih =>
      obtain ⟨shown, hshown, htiles⟩ := ih
      obtain ⟨bytes, hspells, hdrop⟩ := shows_lineAt (Array.getElem?_eq_getElem h) tables
      refine ⟨(offset, line) :: shown, by rw [hshown]; simp, ?_⟩
      rw [hdrop]
      exact .cons hspells htiles
  | case2 offset tables lines h =>
      refine ⟨[], (List.append_nil _).symm, ?_⟩
      rw [List.drop_eq_nil_of_le (by simpa using h)]
      exact .nil offset

theorem tiles_lines (code : Bytecode) : Tiles 0 (lines code) code.toList := by
  obtain ⟨shown, hshown, htiles⟩ := tiles_sweep code 0 ∅ #[]
  rw [List.nil_append] at hshown
  rw [lines, hshown]
  exact htiles

namespace Tiles

variable {place : Nat} {line : Line} {lines : List (Nat × Line)} {bytes : List UInt8}

/-- Where lines begin, and where the last one ends. -/
theorem head?_boundaries (h : Tiles offset lines bytes) :
    (lines.map (·.1) ++ [offset + bytes.length]).head? = some offset := by
  cases h <;> rfl

private theorem eq_nil_iff (h : Tiles offset lines bytes) : lines = [] ↔ bytes = [] := by
  cases h with
  | nil => exact iff_of_true rfl rfl
  | @cons _ line bytes rest lines hspells =>
      have hpos := hspells.length_eq ▸ line.size_pos
      simp [List.ne_nil_of_length_pos hpos]

private theorem pairwise_boundaries (h : Tiles offset lines bytes) :
    (lines.map (·.1) ++ [offset + bytes.length]).Pairwise (· < ·) ∧
      ∀ place ∈ lines.map (·.1) ++ [offset + bytes.length], offset ≤ place := by
  induction h with
  | nil offset => simp
  | @cons offset line bytes rest lines hspells _ ih =>
      have hpos := line.size_pos
      rw [List.length_append, hspells.length_eq, ← Nat.add_assoc, List.map_cons, List.cons_append]
      refine ⟨List.pairwise_cons.mpr ⟨fun place hplace => ?_, ih.1⟩,
        List.forall_mem_cons.mpr ⟨Nat.le_refl offset, fun place hplace => ?_⟩⟩
      · exact Nat.lt_of_lt_of_le (Nat.lt_add_of_pos_right hpos) (ih.2 place hplace)
      · exact Nat.le_trans (Nat.le_add_right offset _) (ih.2 place hplace)

/-- A line stands for the bytes between its offset and the next one. -/
theorem spells_getElem? (h : Tiles offset lines bytes) {k : Nat}
    (hk : lines[k]? = some (place, line)) :
    (lines.map (·.1) ++ [offset + bytes.length])[k + 1]? = some (place + line.size) ∧
      ∃ front own back, bytes = front ++ (own ++ back) ∧ offset + front.length = place ∧
        line.Spells own := by
  induction h generalizing k with
  | nil => simp at hk
  | @cons offset first own rest lines hspells htiles ih =>
      rw [List.length_append, hspells.length_eq, ← Nat.add_assoc]
      cases k with
      | zero =>
          cases hk
          refine ⟨?_, [], own, rest, rfl, rfl, hspells⟩
          rw [List.map_cons, List.cons_append, List.getElem?_cons_succ, ← List.head?_eq_getElem?]
          exact htiles.head?_boundaries
      | succ k =>
          obtain ⟨hnext, front, middle, back, rfl, hplace, hmiddle⟩ := ih hk
          refine ⟨hnext, own ++ front, middle, back, by simp, ?_, hmiddle⟩
          rw [List.length_append, hspells.length_eq, ← Nat.add_assoc, hplace]

end Tiles

/-- Where lines begin, and where the last one ends. -/
def boundaries (code : Bytecode) : List Nat := (lines code).map (·.1) ++ [code.size]

end Listing

/-! ## Listing with every access checked -/

namespace Checked

/-- The entries of a table from the `k`-th on, `left` of them at most. -/
def entries (code : Bytecode) (table k : Nat) : Nat → Except Fault (List Nat)
  | 0 => .ok []
  | left + 1 => do
      let place ← add table (← mul 2 k)
      match ← decodeShort code place with
      | none => return []
      | some entry =>
          let others ← entries code table (k + 1) left
          return entry :: others

def tableAt (code : Bytecode) (offset : Nat) : Except Fault Line := do
  match ← decodeShort code offset with
  | none => return .byte (← byteAt code.toList offset)
  | some count => return .table count (← entries code offset 1 count)

def instructionAt (code : Bytecode) (offset : Nat) : Except Fault Line := do
  let byte ← byteAt code.toList offset
  match Opcode.ofByte? byte with
  | none => return .byte byte
  | some .halt => return .plain .halt
  | some .ret => return .plain .ret
  | some .put =>
      match decodeText code (← add offset 1) with
      | none => return .byte byte
      | some (text, length) => return .put text length
  | some opcode =>
      match ← decodeShort code (← add offset 1) with
      | none => return .byte byte
      | some target => return .address opcode target

def lineAt (code : Bytecode) (tables : Std.HashSet Nat) (offset : Nat) : Except Fault Line :=
  if tables.contains offset then tableAt code offset else instructionAt code offset

/-- The offset behind a line. -/
def behind (offset : Nat) : Line → Except Fault Nat
  | .plain _ | .byte _ => add offset 1
  | .address _ _ => do add offset (← add 1 2)
  | .put _ length => do add offset (← add 1 length)
  | .table _ entries => do add (← add offset 2) (← mul 2 entries.length)

theorem eq_of_add_eq_ok {m n sum : Nat} (h : add m n = .ok sum) : sum = m + n := by
  unfold add at h
  split at h <;> cases h
  rfl

private theorem eq_of_mul_eq_ok {m n product : Nat} (h : mul m n = .ok product) :
    product = m * n := by
  unfold mul at h
  split at h <;> cases h
  rfl

theorem eq_of_behind_eq_ok {offset next : Nat} {line : Line} (h : behind offset line = .ok next) :
    next = offset + line.size := by
  cases line with
  | plain | byte => exact eq_of_add_eq_ok h
  | address opcode target =>
      obtain ⟨size, hsize, hnext⟩ := exists_of_bind_eq_ok h
      rw [eq_of_add_eq_ok hnext, eq_of_add_eq_ok hsize, Line.size]
  | put text length =>
      obtain ⟨size, hsize, hnext⟩ := exists_of_bind_eq_ok h
      rw [eq_of_add_eq_ok hnext, eq_of_add_eq_ok hsize, Line.size]
  | table count entries =>
      obtain ⟨first, hfirst, h⟩ := exists_of_bind_eq_ok h
      obtain ⟨size, hsize, hnext⟩ := exists_of_bind_eq_ok h
      rw [eq_of_add_eq_ok hnext, eq_of_add_eq_ok hfirst, eq_of_mul_eq_ok hsize, Line.size,
        Nat.add_assoc]

def sweep (code : Bytecode) (offset : Nat) (tables : Std.HashSet Nat)
    (lines : Array (Nat × Line)) : Except Fault (Array (Nat × Line)) := do
  if offset < code.size then
    let line ← lineAt code tables offset
    match _hnext : behind offset line with
    | .error fault => throw fault
    | .ok next => sweep code next (line.note tables) (lines.push (offset, line))
  else return lines
termination_by code.size - offset
decreasing_by
  have := line.size_pos
  have := eq_of_behind_eq_ok _hnext
  omega

/-! ### No fault is met -/

theorem byteAt_eq (h : code[offset]? = some byte) : byteAt code.toList offset = .ok byte := by
  rw [byteAt, Array.getElem?_toList, h]

private theorem behind_eq {line : Line} (h : offset + line.size < wordLimit) :
    behind offset line = .ok (offset + line.size) := by
  cases line with
  | plain | byte => exact add_eq h
  | address opcode target => exact add_eq h
  | put text length =>
      rw [Line.size] at h ⊢
      rw [behind, add_eq (by omega), ok_bind, add_eq h]
  | table count entries =>
      rw [Line.size] at h ⊢
      rw [behind, add_eq (by omega), ok_bind, mul_eq (by omega), ok_bind, add_eq (by omega),
        Nat.add_assoc]

/-- Entries are read until one is not there, which is where the buffer ends. -/
theorem entries_eq (hsize : code.size ≤ maxBytes) {table : Nat} (htable : table ≤ maxBytes)
    (left k : Nat) (hk : k + left ≤ 0x10000) :
    entries code table k left =
      .ok ((List.range (min left ((code.size - (table + 2 * k)) / 2))).filterMap fun j =>
        Operand.decodeShort code (table + 2 * k + 2 * j)) := by
  have hlimit : maxBytes + 2 * 0x10000 < wordLimit := by decide
  induction left generalizing k with
  | zero => simp [entries]
  | succ left ih =>
      rw [entries, mul_eq (by omega), ok_bind, add_eq (by omega), ok_bind, decodeShort_eq hsize,
        ok_bind]
      cases hread : Operand.decodeShort code (table + 2 * k) with
      | none =>
          have hshort := lt_of_decodeShort_eq_none hread
          have hshown : min (left + 1) ((code.size - (table + 2 * k)) / 2) = 0 := by omega
          rw [hshown]
          rfl
      | some entry =>
          have hroom := (Operand.decodeShort_lt hread).2
          have hshown : min (left + 1) ((code.size - (table + 2 * k)) / 2) =
              min left ((code.size - (table + 2 * (k + 1))) / 2) + 1 := by omega
          have hplace (j : Nat) : table + 2 * k + 2 * (j + 1) = table + 2 * (k + 1) + 2 * j := by
            omega
          simp only [hshown, List.range_succ_eq_map, List.filterMap_cons, List.filterMap_map,
            Nat.mul_zero, Nat.add_zero, hread, ih (k + 1) (by omega), ok_bind, Function.comp_def,
            Nat.succ_eq_add_one, hplace]
          rfl

private theorem tableAt_eq (hsize : code.size ≤ maxBytes) (h : code[offset]? = some byte) :
    tableAt code offset = .ok (Listing.tableAt code offset byte) := by
  obtain ⟨hlt, -⟩ := Array.getElem?_eq_some_iff.mp h
  unfold tableAt Listing.tableAt
  rw [decodeShort_eq hsize, ok_bind]
  cases hread : Operand.decodeShort code offset with
  | none => simp only [byteAt_eq h, ok_bind]; rfl
  | some count =>
      have hcount := (Operand.decodeShort_lt hread).1
      simp only [entries_eq hsize (show offset ≤ maxBytes by omega) count 1 (by omega), ok_bind]
      rfl

private theorem instructionAt_eq (hsize : code.size ≤ maxBytes) (h : code[offset]? = some byte) :
    instructionAt code offset = .ok (Listing.instructionAt code offset byte) := by
  obtain ⟨hlt, -⟩ := Array.getElem?_eq_some_iff.mp h
  have hlimit : maxBytes + 1 < wordLimit := by decide
  unfold instructionAt Listing.instructionAt
  simp only [byteAt_eq h, ok_bind, add_eq (show offset + 1 < wordLimit by omega),
    decodeShort_eq hsize, decodeText_eq hsize]
  cases Opcode.ofByte? byte with
  | none => rfl
  | some opcode =>
      cases opcode with
      | halt | ret => rfl
      | put => cases Operand.decodeText code (offset + 1) <;> rfl
      | jump | pick | call => cases Operand.decodeShort code (offset + 1) <;> rfl

private theorem lineAt_eq (hsize : code.size ≤ maxBytes) (h : code[offset]? = some byte)
    (tables : Std.HashSet Nat) :
    lineAt code tables offset = .ok (Listing.lineAt code tables offset byte) := by
  rw [lineAt, tableAt_eq hsize h, instructionAt_eq hsize h, ← apply_ite Except.ok]
  rfl

/-- The checked sweep is the sweep. -/
theorem sweep_eq (hsize : code.size ≤ maxBytes) (offset : Nat) (tables : Std.HashSet Nat)
    (lines : Array (Nat × Line)) :
    sweep code offset tables lines = .ok (Listing.sweep code offset tables lines) := by
  have hlimit : maxBytes < wordLimit := by decide
  fun_induction Listing.sweep code offset tables lines with
  | case1 offset tables lines h line ih =>
      have hbyte := Array.getElem?_eq_getElem h
      have hbehind : offset + line.size ≤ code.size :=
        (shows_lineAt hbyte tables).le (Nat.le_of_lt h)
      have hnext := behind_eq (Nat.lt_of_le_of_lt (Nat.le_trans hbehind hsize) hlimit)
      rw [sweep, if_pos h, lineAt_eq hsize hbyte, ok_bind]
      split
      · rename_i fault hfault
        exact absurd (hfault.symm.trans hnext) nofun
      · rename_i next hok
        rw [eq_of_behind_eq_ok hok]
        exact ih
  | case2 offset tables lines h =>
      rw [sweep, if_neg h]
      rfl

end Checked

namespace Listing

/--
The lines of any buffer whatever begin at its first byte, and each of them stands
for the bytes from its offset to the next one, the last for those to the end of the
buffer.  A byte is left to itself only where nothing else is due.  What stands in the
text is these lines, and the sweep reads nothing that is not there.
-/
theorem lines_tile (code : Bytecode) :
    (boundaries code).head? = some 0 ∧ (boundaries code).Pairwise (· < ·) ∧
      (lines code = [] ↔ code = #[]) ∧
      (∀ k offset line, (lines code)[k]? = some (offset, line) →
        (boundaries code)[k + 1]? = some (offset + line.size) ∧
          line.Spells (code.extract offset (offset + line.size)).toList ∧
          line.Due code offset (Marked (lines code) offset)) ∧
      Text.splitOn '\n' (listing code).toList = (lines code).map lineText ++ [[]] ∧
      (code.size ≤ Checked.maxBytes → Checked.sweep code 0 ∅ #[] = .ok (lines code).toArray) := by
  have htiles := tiles_lines code
  have hboundaries : (lines code).map (·.1) ++ [0 + code.toList.length] = boundaries code := by
    rw [Nat.zero_add, Array.length_toList, boundaries]
  refine ⟨hboundaries ▸ htiles.head?_boundaries, hboundaries ▸ htiles.pairwise_boundaries.1,
    htiles.eq_nil_iff.trans Array.toList_eq_nil_iff, ?_, splitOn_listing code, ?_⟩
  · intro k offset line hk
    have hdue := due_lines code (offset, line) (List.mem_of_getElem? hk)
    obtain ⟨hnext, front, own, back, hcode, rfl, hspells⟩ := htiles.spells_getElem? hk
    have hown := extract_middle hcode
    rw [hspells.length_eq] at hown
    rw [hboundaries, Nat.zero_add] at hnext
    rw [Nat.zero_add] at hdue ⊢
    rw [hown]
    exact ⟨hnext, hspells, hdue⟩
  · intro hsize
    rw [Checked.sweep_eq hsize, lines]

/-- A pick into its own operand, malformed text, and a table cut off with a byte behind it. -/
def tangled : Bytecode := #[3, 0, 1, 3, 0, 9, 2, 0xC3, 0x28, 0, 5, 2, 0xC3, 3]

private theorem lines_tangled :
    lines tangled =
      [(0, .address .pick 1), (3, .address .pick 9), (6, .put ['\uFFFD', '('] 2),
        (9, .table 5 [0x2C3]), (13, .byte 3)] := by
  have hsize : tangled.size ≤ 14 := by decide
  rw [lines,
    sweep_of_line rfl (show lineAt tangled _ _ 3 = .address .pick 1 by simp [lineAt]; rfl),
    sweep_of_line rfl (show lineAt tangled _ _ 3 = .address .pick 9 by
      simp [lineAt, Line.note]; rfl),
    sweep_of_line rfl (show lineAt tangled _ _ 2 = .put ['\uFFFD', '('] 2 by
      simp [lineAt, Line.note]; rfl),
    sweep_of_line rfl (show lineAt tangled _ _ 0 = .table 5 [0x2C3] by
      simp [lineAt, Line.note]; rfl),
    sweep_of_line rfl (show lineAt tangled _ _ 3 = .byte 3 by simp [lineAt, Line.note]; rfl)]
  exact congrArg Array.toList (sweep_of_le hsize _)

theorem listing_tangled :
    (Text.splitOn '\n' (listing tangled).toList).map String.ofList =
        ["0000  PICK @0001", "0003  PICK @0009", "0006  PUT  \"\uFFFD(\"",
          "0009  .table 5 -> [@02c3]", "000d  .byte 0x03", ""] ∧
      Checked.sweep tangled 0 ∅ #[] = .ok (lines tangled).toArray := by
  obtain ⟨-, -, -, -, htext, hchecked⟩ := lines_tile tangled
  refine ⟨?_, hchecked (by decide)⟩
  rw [htext, lines_tangled]
  decide

end Listing

end Wordmill
