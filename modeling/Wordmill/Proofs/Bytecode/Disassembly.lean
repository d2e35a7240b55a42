import Std.Data.HashSet.Lemmas
import Wordmill.Proofs.Bytecode.ListingText
import Wordmill.Proofs.Bytecode.Reachable

/-!
# Listings of compiled code

A sweep over compiled code meets the instructions one after another.  The picks
are all among them, so that every table is known by the time it is met.
-/

namespace Wordmill

open Instruction Layout Listing

/-- How an instruction is shown; `table` is the table of a pick. -/
def Instruction.line (startOf : Char → Nat) (table : Nat) : Instruction → Line
  | .halt => .plain .halt
  | .ret => .plain .ret
  | .put c => .put [c] c.utf8Size
  | .jump target => .address .jump target
  | .call name => .address .call (startOf name)
  | .pick _ => .address .pick table

@[simp] theorem Instruction.size_line (startOf : Char → Nat) (table : Nat)
    (instruction : Instruction) : (instruction.line startOf table).size = instruction.size := by
  cases instruction <;> rfl

namespace Layout

/-- Every instruction with its offset and operand; the next pick gets the table at `table`. -/
def instructionLines (startOf : Char → Nat) : Nat → Nat → List Instruction → List (Nat × Line)
  | _, _, [] => []
  | offset, table, instruction :: instructions =>
      (offset, instruction.line startOf table) ::
        instructionLines startOf (offset + instruction.size) (table + instruction.tableSize)
          instructions

/-- The tables of the picks with all their entries, the next one at `table`. -/
def tableLines : Nat → List Instruction → List (Nat × Line)
  | _, [] => []
  | table, .pick starts :: instructions =>
      (table, .table starts.length starts) ::
        tableLines (table + tableSize (.pick starts)) instructions
  | table, _ :: instructions => tableLines table instructions

theorem map_fst_instructionLines (startOf : Char → Nat) (offset table : Nat)
    (instructions : List Instruction) :
    (instructionLines startOf offset table instructions).map (·.1) =
      (placed offset instructions).map (·.1) := by
  induction instructions generalizing offset table with
  | nil => rfl
  | cons instruction instructions ih => simp [instructionLines, placed, ih]

private theorem map_snd_tableLines (table offset : Nat) (instructions : List Instruction) :
    (tableLines table instructions).map (·.2) =
      (picks offset instructions).map fun pick => .table pick.2.length pick.2 := by
  induction instructions generalizing table offset with
  | nil => rfl
  | cons instruction instructions ih =>
      rw [picks_cons]
      cases instruction with
      | halt | ret | put | jump | call => exact ih table (offset + _)
      | pick starts =>
          simp only [tableLines, pickAt, Option.toList_some, List.map_cons, List.singleton_append]
          rw [ih _ (offset + size (.pick starts))]

end Layout

namespace Listing

variable {code : Bytecode} {offset : Nat} {byte : UInt8} {tables : Std.HashSet Nat}

theorem sweep_of_line {line : Line} (h : code[offset]? = some byte)
    (hline : lineAt code tables offset byte = line) (lines : Array (Nat × Line)) :
    sweep code offset tables lines =
      sweep code (offset + line.size) (line.note tables) (lines.push (offset, line)) := by
  obtain ⟨hlt, rfl⟩ := Array.getElem?_eq_some_iff.mp h
  rw [sweep, dif_pos hlt, hline]

theorem sweep_of_le (h : code.size ≤ offset) (lines : Array (Nat × Line)) :
    sweep code offset tables lines = lines := by
  rw [sweep, dif_neg (Nat.not_lt_of_le h)]

/-! ## Instructions -/

/-- The bytes of an instruction are shown as that instruction. -/
theorem instructionAt_bytes {startOf : Char → Nat} {instruction : Instruction}
    {instructions : List Instruction} {table : Nat} (hfits : instruction.Fits startOf)
    (hfault : tableFault table (instruction :: instructions) = none) (front back : List UInt8)
    (hcode : code = (front ++ (instruction.bytes startOf table ++ back)).toArray) :
    ∃ byte, code[front.length]? = some byte ∧
      instructionAt code front.length byte = instruction.line startOf table := by
  subst hcode
  cases instruction with
  | halt => exact ⟨_, getElem?_opcode front _ .halt, rfl⟩
  | ret => exact ⟨_, getElem?_opcode front _ .ret, rfl⟩
  | put c =>
      refine ⟨_, getElem?_opcode front _ .put, ?_⟩
      have htext := Operand.decodeText_append (front ++ [Opcode.put.toByte]) back c
      simp only [List.length_append, List.length_singleton, List.append_assoc,
        List.singleton_append] at htext
      simp [instructionAt, bytes, line, htext]
  | jump target =>
      refine ⟨_, getElem?_opcode front _ .jump, ?_⟩
      simp [instructionAt, bytes, line, decodeShort_withAddress front back .jump hfits.2]
  | call name =>
      refine ⟨_, getElem?_opcode front _ .call, ?_⟩
      simp [instructionAt, bytes, line, decodeShort_withAddress front back .call hfits.2]
  | pick starts =>
      refine ⟨_, getElem?_opcode front _ .pick, ?_⟩
      simp only [tableFault, Option.or_eq_none_iff] at hfault
      have htable := le_of_addressFault hfault.1.1
      simp [instructionAt, bytes, line, decodeShort_withAddress front back .pick htable]

/-- The address of a pick is noted. -/
theorem note_line (startOf : Char → Nat) (table : Nat) (instruction : Instruction)
    (instructions : List Instruction) (tables : Std.HashSet Nat) :
    ((instruction.line startOf table).note tables).insertMany
        (tablePlaces (table + instruction.tableSize) instructions) =
      tables.insertMany (tablePlaces table (instruction :: instructions)) := by
  cases instruction with
  | halt | ret | put | jump | call => rfl
  | pick starts => exact Std.HashSet.insertMany_cons.symm

private theorem mem_note_line {startOf : Char → Nat} {table place : Nat} {instruction : Instruction}
    (h : place ∈ (instruction.line startOf table).note tables) :
    place = table ∨ place ∈ tables := by
  cases instruction with
  | halt | ret | put | jump | call => exact .inr h
  | pick starts =>
      rw [line, Line.note, Std.HashSet.mem_insert, beq_iff_eq] at h
      exact h.imp_left Eq.symm

/-- While no table is known to start among them, instructions are shown one after another. -/
theorem sweep_link (startOf : Char → Nat) (instructions : List Instruction)
    (front back : List UInt8) (table : Nat) (tables : Std.HashSet Nat)
    (lines : Array (Nat × Line))
    (hcode : code = (front ++ (link startOf table instructions ++ back)).toArray)
    (hfits : ∀ instruction ∈ instructions, instruction.Fits startOf)
    (hfault : tableFault table instructions = none)
    (htables : ∀ place ∈ tables, front.length + span instructions ≤ place)
    (htable : front.length + span instructions ≤ table) :
    sweep code front.length tables lines =
      sweep code (front.length + span instructions)
        (tables.insertMany (tablePlaces table instructions))
        (lines ++ (instructionLines startOf front.length table instructions).toArray) := by
  induction instructions generalizing front table tables lines with
  | nil => simp [tablePlaces, instructionLines, Std.HashSet.insertMany_nil]
  | cons instruction instructions ih =>
      have hpos := size_pos instruction
      rw [span_cons] at htables htable
      rw [link, List.append_assoc] at hcode
      obtain ⟨byte, hbyte, hline⟩ :=
        instructionAt_bytes (hfits _ List.mem_cons_self) hfault front _ hcode
      have hunknown : tables.contains front.length = false := by
        rw [← Bool.not_eq_true, Std.HashSet.contains_iff_mem]
        intro hmem
        have := htables _ hmem
        omega
      have hshown : lineAt code tables front.length byte = instruction.line startOf table := by
        rw [lineAt, hunknown]
        exact hline
      have hrest := ih (front ++ instruction.bytes startOf table)
        (table + instruction.tableSize) ((instruction.line startOf table).note tables)
        (lines.push (front.length, instruction.line startOf table)) (by simp [hcode])
        (fun other hother => hfits other (List.mem_cons_of_mem _ hother))
        (tableFault_tail hfault) ?_ (by simp; omega)
      · rw [List.length_append, length_bytes, note_line] at hrest
        rw [sweep_of_line hbyte hshown, size_line, hrest, span_cons, Nat.add_assoc]
        simp [instructionLines]
      · intro place hplace
        rw [List.length_append, length_bytes]
        rcases mem_note_line hplace with rfl | hplace
        · omega
        · have := htables _ hplace
          omega

/-! ## Tables -/

private theorem filterMap_range {α : Type} {read : Nat → Option α} {items : List α}
    (h : ∀ k item, items[k]? = some item → read k = some item) :
    (List.range items.length).filterMap read = items := by
  have hmap : (List.range items.length).map read = items.map some := by
    apply List.ext_getElem (by simp)
    intro k hk _
    rw [List.length_map, List.length_range] at hk
    simpa using h k _ (List.getElem?_eq_getElem hk)
  have hall : ((List.range items.length).map read).filterMap id = items := by
    rw [hmap]
    simp
  rwa [List.filterMap_map] at hall

/-- A table is shown with as many of its entries as there is room for. -/
theorem tableAt_shorts {count : Nat} {entries : List Nat} (front back : List UInt8)
    (hfault : (count :: entries).findSome? addressFault = none)
    (hcode : code = (front ++ (shorts (count :: entries) ++ back)).toArray)
    (hshown : min count ((code.size - (front.length + 2)) / 2) = entries.length) (byte : UInt8) :
    tableAt code front.length byte = .table count entries := by
  have hread (k n : Nat) (hk : (count :: entries)[k]? = some n) :
      Operand.decodeShort code (front.length + 2 * k) = some n := by
    rw [hcode]
    exact decodeShort_shorts front back _ hfault k n hk
  have hcount : Operand.decodeShort code front.length = some count := hread 0 _ rfl
  have hentries : (List.range entries.length).filterMap
      (fun k => Operand.decodeShort code (front.length + 2 + 2 * k)) = entries := by
    apply filterMap_range
    intro k entry hentry
    rw [show front.length + 2 + 2 * k = front.length + 2 * (k + 1) by omega]
    exact hread (k + 1) entry hentry
  simp only [tableAt, hcount, hshown, hentries]

private theorem sweep_tables (instructions : List Instruction) (front : List UInt8)
    (tables : Std.HashSet Nat) (lines : Array (Nat × Line))
    (hcode : code = (front ++ instructions.flatMap Layout.table).toArray)
    (hfault : tableFault front.length instructions = none)
    (htables : ∀ place ∈ tablePlaces front.length instructions, place ∈ tables) :
    sweep code front.length tables lines =
      lines ++ (tableLines front.length instructions).toArray := by
  induction instructions generalizing front lines with
  | nil =>
      rw [sweep_of_le (by simp [hcode])]
      simp [tableLines]
  | cons instruction instructions ih =>
      cases instruction with
      | halt | ret | put | jump | call => exact ih front lines hcode hfault htables
      | pick starts =>
          have hrest := tableFault_tail hfault
          simp only [tableFault, Option.or_eq_none_iff] at hfault
          rw [List.flatMap_cons] at hcode
          obtain ⟨byte, hbyte⟩ : ∃ byte, code[front.length]? = some byte := by
            simp [hcode, Layout.table, shorts]
          have hknown : tables.contains front.length = true :=
            Std.HashSet.contains_iff_mem.mpr (htables _ List.mem_cons_self)
          have hshown : lineAt code tables front.length byte =
              .table starts.length starts := by
            have hroom : min starts.length ((code.size - (front.length + 2)) / 2) =
                starts.length := by
              simp [hcode, Layout.table]
              omega
            rw [lineAt, if_pos hknown]
            exact tableAt_shorts front _ hfault.1.2 hcode hroom byte
          have hnext := ih (front ++ Layout.table (.pick starts))
            (lines.push (front.length, .table starts.length starts)) (by simp [hcode])
            (by simpa using hrest)
            (fun place hplace => htables place (List.mem_cons_of_mem _ (by simpa using hplace)))
          rw [List.length_append, length_table] at hnext
          rw [sweep_of_line hbyte hshown]
          refine hnext.trans ?_
          simp [tableLines]

end Listing

/-! ## Where addresses lead -/

namespace Layout

variable {startOf : Char → Nat} {offset table place : Nat} {line : Line}
  {instructions : List Instruction}

theorem exists_of_mem_instructionLines
    (h : (place, line) ∈ instructionLines startOf offset table instructions) :
    ∃ instruction address, (place, instruction) ∈ placed offset instructions ∧
      line = instruction.line startOf address ∧
      ∀ starts, instruction = .pick starts →
        (address, .table starts.length starts) ∈ tableLines table instructions := by
  induction instructions generalizing offset table with
  | nil => contradiction
  | cons instruction instructions ih =>
      rcases List.mem_cons.mp h with h | h
      · cases h
        refine ⟨instruction, table, List.mem_cons_self, rfl, ?_⟩
        rintro starts rfl
        exact List.mem_cons_self
      · obtain ⟨found, address, hplaced, hline, htable⟩ := ih h
        refine ⟨found, address, List.mem_cons_of_mem _ hplaced, hline, ?_⟩
        intro starts hstarts
        have hmem := htable starts hstarts
        cases instruction with
        | halt | ret | put | jump | call => exact hmem
        | pick others => exact List.mem_cons_of_mem _ hmem

/-- A pick is shown with the address of its own table. -/
theorem exists_table_of_pick {starts : List Nat}
    (h : (place, .pick starts) ∈ placed offset instructions) :
    ∃ address, (place, .address .pick address) ∈
        instructionLines startOf offset table instructions ∧
      (address, .table starts.length starts) ∈ tableLines table instructions := by
  induction instructions generalizing offset table with
  | nil => contradiction
  | cons instruction instructions ih =>
      rcases List.mem_cons.mp h with h | h
      · cases h
        exact ⟨table, List.mem_cons_self, List.mem_cons_self⟩
      · obtain ⟨address, hline, htable⟩ := ih h
        refine ⟨address, List.mem_cons_of_mem _ hline, ?_⟩
        cases instruction with
        | halt | ret | put | jump | call => exact htable
        | pick others => exact List.mem_cons_of_mem _ htable

theorem exists_of_mem_tableLines (h : (place, line) ∈ tableLines table instructions) :
    ∃ starts, .pick starts ∈ instructions ∧ line = .table starts.length starts := by
  induction instructions generalizing table with
  | nil => contradiction
  | cons instruction instructions ih =>
      cases instruction with
      | halt | ret | put | jump | call =>
          obtain ⟨starts, hmem, hline⟩ := ih h
          exact ⟨starts, List.mem_cons_of_mem _ hmem, hline⟩
      | pick starts =>
          rcases List.mem_cons.mp h with h | h
          · cases h
            exact ⟨starts, List.mem_cons_self, rfl⟩
          · obtain ⟨others, hmem, hline⟩ := ih h
            exact ⟨others, List.mem_cons_of_mem _ hmem, hline⟩

end Layout

namespace Listing

def Line.isInstruction : Line → Bool
  | .plain _ | .address _ _ | .put _ _ => true
  | .table _ _ | .byte _ => false

def ShowsInstruction (entries : List (Nat × Line)) (offset : Nat) : Prop :=
  ∃ line, (offset, line) ∈ entries ∧ line.isInstruction = true

/--
Tables are complete, and what a line mentions is shown as it should be: the
tables of picks as tables, and everything else as instructions.
-/
def Line.Resolved (entries : List (Nat × Line)) : Line → Prop
  | .plain _ | .put _ _ => True
  | .address .pick target => ∃ count starts, (target, .table count starts) ∈ entries
  | .address _ target => ShowsInstruction entries target
  | .table count starts => starts.length = count ∧ ∀ start ∈ starts, ShowsInstruction entries start
  | .byte _ => False

private theorem isInstruction_line (startOf : Char → Nat) (table : Nat)
    (instruction : Instruction) :
    (instruction.line startOf table).isInstruction = true := by
  cases instruction <;> rfl

private theorem showsInstruction_of_placed {startOf : Char → Nat} {offset table place : Nat}
    {instruction : Instruction} {instructions : List Instruction}
    (h : (place, instruction) ∈ placed offset instructions) :
    ShowsInstruction (instructionLines startOf offset table instructions) place := by
  have hplace : place ∈ (instructionLines startOf offset table instructions).map (·.1) := by
    rw [map_fst_instructionLines]
    exact List.mem_map_of_mem h
  obtain ⟨⟨shown, line⟩, hentry, rfl⟩ := List.mem_map.mp hplace
  obtain ⟨found, address, -, hline, -⟩ := exists_of_mem_instructionLines hentry
  refine ⟨line, hentry, ?_⟩
  rw [hline]
  exact isInstruction_line startOf address found

end Listing

variable (definitions : Dictionary Pattern) {pattern : Pattern} {code : Bytecode}

/-- Instructions of a program lead to instructions of the program. -/
theorem placed_of_successor {site : Nat × Instruction} {target : Nat}
    (hsite : site ∈ placed 0 (program definitions pattern)) (htarget : Successor site target) :
    ∃ instruction, (target, instruction) ∈ placed 0 (program definitions pattern) := by
  have hregions := placed_program_eq_append definitions pattern 0 []
  obtain ⟨returns, hregion⟩ : ∃ returns, site ∈ region definitions pattern returns := by
    rw [hregions] at hsite
    rcases List.mem_append.mp hsite with hsite | hsite
    · exact ⟨_, hsite⟩
    · exact ⟨_, hsite⟩
  obtain ⟨-, instruction, hinstruction⟩ := successor_mem_region definitions hregion htarget
  exact ⟨instruction, region_subset definitions pattern returns hinstruction⟩

/-- What is shown of a program: its instructions and, behind them, its tables. -/
def Layout.programLines (pattern : Pattern) : List (Nat × Line) :=
  let code := program definitions pattern
  instructionLines (startOf definitions pattern) 0 (span code) code ++ tableLines (span code) code

theorem showsInstruction_programLines {place : Nat} {instruction : Instruction}
    (h : (place, instruction) ∈ placed 0 (program definitions pattern)) :
    ShowsInstruction (programLines definitions pattern) place := by
  obtain ⟨line, hline, hinstruction⟩ := showsInstruction_of_placed h
  exact ⟨line, List.mem_append_left _ hline, hinstruction⟩

private theorem resolved_programLines (hfault : compileFault definitions pattern = none)
    {entry : Nat × Line} (h : entry ∈ programLines definitions pattern) :
    entry.2.Resolved (programLines definitions pattern) := by
  obtain ⟨place, line⟩ := entry
  have hleads {site : Nat × Instruction} {target : Nat}
      (hsite : site ∈ placed 0 (program definitions pattern)) (htarget : Successor site target) :
      ShowsInstruction (programLines definitions pattern) target := by
    obtain ⟨instruction, hinstruction⟩ := placed_of_successor definitions hsite htarget
    exact showsInstruction_programLines definitions hinstruction
  rcases List.mem_append.mp h with h | h
  · obtain ⟨instruction, address, hplaced, rfl, htable⟩ := exists_of_mem_instructionLines h
    cases instruction with
    | halt | ret | put => trivial
    | jump target => exact hleads hplaced rfl
    | call name =>
        obtain ⟨body, -, -, hbody⟩ := subroutine_of_call definitions hfault hplaced
        obtain ⟨first, hfirst⟩ := (boundary_start (startOf definitions pattern name)
          (body.instructions definitions (startOf definitions pattern name))).exists_instruction
            (List.cons_ne_nil .ret [])
        exact showsInstruction_programLines definitions (hbody hfirst)
    | pick starts =>
        exact ⟨starts.length, starts, List.mem_append_right _ (htable starts rfl)⟩
  · obtain ⟨starts, hpick, rfl⟩ := exists_of_mem_tableLines h
    obtain ⟨site, hsite⟩ := exists_mem_placed 0 hpick
    exact ⟨rfl, fun start hstart => hleads hsite hstart⟩

/-- The sweep shows the program. -/
theorem lines_eq_programLines (hcode : compile pattern definitions = .ok code) :
    lines code = programLines definitions pattern := by
  obtain ⟨hfault, hbytes⟩ := (compile_eq_ok_iff definitions).mp hcode
  have hfits := fits_program definitions hfault
  simp only [compileFault, Option.or_eq_none_iff] at hfault
  obtain ⟨-, -, -, htables⟩ := hfault
  have hinstructions := sweep_link (startOf definitions pattern)
    (program definitions pattern) [] ((program definitions pattern).flatMap Layout.table)
    (span (program definitions pattern)) ∅ #[] hbytes hfits htables (by simp) (by simp)
  have hrest := sweep_tables (program definitions pattern)
    (link (startOf definitions pattern) (span (program definitions pattern))
      (program definitions pattern))
    ((∅ : Std.HashSet Nat).insertMany
      (tablePlaces (span (program definitions pattern)) (program definitions pattern)))
    (instructionLines (startOf definitions pattern) 0 (span (program definitions pattern))
      (program definitions pattern)).toArray hbytes (by simpa using htables)
    (by simp [Std.HashSet.mem_insertMany_list])
  rw [length_link] at hrest
  simp only [List.length_nil, Nat.zero_add, Array.empty_append] at hinstructions
  rw [lines, hinstructions, hrest]
  simp [programLines]

/--
A listing of compiled code shows every assembled instruction once, in order and with its
offset and operand, and then the table of every pick with all its entries.
Nothing is left over, every address that is shown leads to a line of the right
kind, and a line of the listing is a line of its text.
-/
theorem lines_of_compile {pattern : Pattern} {code : Bytecode}
    (hcode : compile pattern definitions = .ok code) :
    code = (assemble definitions pattern).toArray ∧
      lines code =
        instructionLines (startOf definitions pattern) 0 (span (program definitions pattern))
            (program definitions pattern) ++
          tableLines (span (program definitions pattern)) (program definitions pattern) ∧
      (instructionLines (startOf definitions pattern) 0 (span (program definitions pattern))
            (program definitions pattern)).map (·.1) =
        (placed 0 (program definitions pattern)).map (·.1) ∧
      (tableLines (span (program definitions pattern)) (program definitions pattern)).map (·.2) =
        (picks 0 (program definitions pattern)).map
          (fun pick => .table pick.2.length pick.2) ∧
      (∀ pick ∈ picks 0 (program definitions pattern), ∃ table,
        (pick.1, .address .pick table) ∈ lines code ∧
          (table, .table pick.2.length pick.2) ∈ lines code) ∧
      (∀ entry ∈ lines code, entry.2.Resolved (lines code)) ∧
      Text.splitOn '\n' (listing code).toList = (lines code).map lineText ++ [[]] := by
  have hlines := lines_eq_programLines definitions hcode
  obtain ⟨hfault, hbytes⟩ := (compile_eq_ok_iff definitions).mp hcode
  refine ⟨hbytes, hlines, map_fst_instructionLines _ _ _ _, map_snd_tableLines _ _ _, ?_, ?_,
    splitOn_listing code⟩
  · intro pick hpick
    obtain ⟨table, hline, htable⟩ := exists_table_of_pick (mem_picks_iff.mp hpick)
    rw [hlines]
    exact ⟨table, List.mem_append_left _ hline, List.mem_append_right _ htable⟩
  · rw [hlines]
    exact fun entry hentry => resolved_programLines definitions hfault hentry

/-- A line end may be chosen, and what is left out may be a definition. -/
def breakPattern : Pattern :=
  .sequence [.choice [.text ['a'], .quoted ['\n']], .optional (.text ['B'])]

def breakDefinitions : Dictionary Pattern := [('B', .text ['b'])]

theorem subroutines_break :
    subroutines breakDefinitions breakPattern = [('B', .text ['b'])] := by
  rw [subroutines, show breakPattern.mentions breakDefinitions = ['B'] from rfl,
    reached_of_some breakDefinitions [] rfl]
  congr 1
  exact reached_nil _ _

private theorem startOf_break :
    startOf breakDefinitions breakPattern = fun name => if name = 'B' then 17 else 0 := by
  funext name
  simp only [startOf, subroutines_break, subroutineStarts, Dictionary.find?]
  split <;> rfl

theorem listing_break :
    ∃ code, compile breakPattern breakDefinitions = .ok code ∧
      (Text.splitOn '\n' (listing code).toList).map String.ofList =
        ["0000  PICK @0014", "0003  PUT  \"a\"", "0005  JUMP @000a", "0008  PUT  \"\\n\"",
          "000a  PICK @001a", "000d  CALL @0011", "0010  HALT", "0011  PUT  \"b\"", "0013  RET",
          "0014  .table 2 -> [@0003, @0008]", "001a  .table 2 -> [@000d, @0010]", ""] := by
  have hfault : compileFault breakDefinitions breakPattern = none := by
    simp only [compileFault, program, subroutines_break]
    rfl
  have hcode := (compile_eq_ok_iff breakDefinitions).mpr ⟨hfault, rfl⟩
  obtain ⟨-, hlines, -, -, -, -, htext⟩ := lines_of_compile breakDefinitions hcode
  refine ⟨_, hcode, ?_⟩
  rw [htext, hlines]
  simp only [program, startOf_break, subroutines_break]
  rfl

end Wordmill
