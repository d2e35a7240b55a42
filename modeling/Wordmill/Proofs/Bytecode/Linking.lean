import Wordmill.Proofs.Bytecode.Emission
import Wordmill.Proofs.Bytecode.Layout
import Wordmill.Proofs.Dictionary

/-!
# Linking

The subroutines are placed by walking a list of calls that grows on the way, the
calls are patched when every start is known, and each pick is patched as its
table is appended.  The bytes are those of the layout.
-/

namespace Wordmill

open Instruction Layout

variable (definitions : Dictionary Pattern)

/-! ## Placing subroutines -/

namespace Pattern

private theorem calls_text (chars : List Char) (offset : Nat) :
    (calls offset (chars.map (ofChar definitions))).map (·.2) =
      chars.filter definitions.hasName := by
  induction chars generalizing offset with
  | nil => rfl
  | cons c chars ih =>
      simp only [List.map_cons, calls_cons, List.map_append, ih]
      by_cases h : definitions.hasName c <;> simp [ofChar, h, callAt]

theorem calls_quoted (chars : List Char) (offset : Nat) :
    calls offset (chars.map Instruction.put) = [] := by
  induction chars generalizing offset with
  | nil => rfl
  | cons c chars ih => simp [ih, callAt]

mutual

theorem calls_instructions (pattern : Pattern) (offset : Nat) :
    (calls offset (pattern.instructions definitions offset)).map (·.2) =
      pattern.unquoted.filter definitions.hasName := by
  cases pattern with
  | sequence parts =>
      simp only [instructions, unquoted]
      exact calls_instructionsEach parts offset
  | text chars => exact calls_text definitions chars offset
  | quoted chars => simp [instructions, unquoted, calls_quoted]
  | choice alternatives =>
      simp only [instructions, unquoted, calls_cons, callAt, size, Option.toList_none,
        List.nil_append]
      exact calls_instructionsBetween _ alternatives (offset + 3)
  | optional body =>
      simp only [instructions, unquoted, calls_cons, callAt, size, Option.toList_none,
        List.nil_append]
      exact calls_instructions body (offset + 3)

theorem calls_instructionsEach (parts : List Pattern) (offset : Nat) :
    (calls offset (instructionsEach definitions parts offset)).map (·.2) =
      (unquotedEach parts).filter definitions.hasName := by
  match parts with
  | [] => rfl
  | part :: parts =>
      simp only [instructionsEach, unquotedEach, calls_append, span_instructions, List.map_append,
        List.filter_append]
      rw [calls_instructions part, calls_instructionsEach parts]

theorem calls_instructionsBetween (target : Nat) (alternatives : List Pattern) (offset : Nat) :
    (calls offset (instructionsBetween definitions target alternatives offset)).map (·.2) =
      (unquotedEach alternatives).filter definitions.hasName := by
  match alternatives with
  | [] => rfl
  | [last] =>
      simp only [instructionsBetween, unquotedEach, List.append_nil]
      exact calls_instructions last offset
  | alternative :: next :: others =>
      have hnext := calls_instructionsBetween target (next :: others)
        (offset + alternative.codeSize definitions + 3)
      simp only [instructionsBetween, calls_append, calls_cons, callAt, size, span_instructions,
        Option.toList_none, List.nil_append, List.map_append, hnext]
      rw [calls_instructions alternative]
      simp [unquotedEach]

end

end Pattern

def subroutineFault : List (Char × Pattern) → Nat → Option CompileError
  | [], _ => none
  | (_, body) :: others, offset =>
      (body.fault definitions offset).or
        (subroutineFault others (offset + body.codeSize definitions + 1))

namespace Assembly

/-- The names of the calls that have not been looked at yet. -/
def queue (a : Assembly) (index : Nat) : List Char :=
  (a.calls.toList.drop index).map (·.2)

theorem queue_extend (a : Assembly) (index : Nat) (instructions : List Instruction)
    (h : index ≤ a.calls.size) :
    (a.extend instructions).queue index =
      a.queue index ++ (Instruction.calls a.here instructions).map (·.2) := by
  simp [queue, extend, List.drop_append_of_le_length, h]

theorem queue_of_some {a : Assembly} {index offset : Nat} {name : Char}
    (h : a.calls[index]? = some (offset, name)) :
    a.queue index = name :: a.queue (index + 1) := by
  obtain ⟨hindex, hget⟩ := Array.getElem?_eq_some_iff.mp h
  have hdrop : a.calls.toList.drop index =
      (offset, name) :: a.calls.toList.drop (index + 1) := by
    rw [List.drop_eq_getElem_cons (by simpa using hindex)]
    simp [hget]
  simp [queue, hdrop]

/-- Append a row of subroutines and note where they start. -/
def place (a : Assembly) (found : List (Char × Pattern)) : Assembly :=
  ⟨(a.extend (subroutineCode definitions found a.here)).code,
    (a.extend (subroutineCode definitions found a.here)).calls,
    (a.extend (subroutineCode definitions found a.here)).picks,
    Dictionary.insertAll (subroutineStarts definitions found a.here) a.starts⟩

private theorem place_nil (a : Assembly) : a.place definitions [] = a := by
  apply eq_of_toList <;> simp [place, subroutineCode, subroutineStarts, Dictionary.insertAll]

private theorem place_cons (a : Assembly) (name : Char) (body : Pattern)
    (others : List (Char × Pattern)) :
    a.place definitions ((name, body) :: others) =
      ((a.mark name).extend (body.instructions definitions a.here ++ [.ret])).place
        definitions others := by
  have hhere : ((a.mark name).extend (body.instructions definitions a.here ++ [.ret])).here =
      a.here + body.codeSize definitions + 1 := by
    simp [Pattern.span_instructions, size, Nat.add_assoc]
  unfold place
  simp only [hhere, extend_extend]
  apply eq_of_toList <;>
    simp [mark, extend, subroutineCode, subroutineStarts, Dictionary.insertAll, here]

end Assembly

/-- Walking the calls is a breadth-first search, and appends the subroutines it finds. -/
theorem placeSubroutines_eq (unplaced : Dictionary Pattern) (index : Nat) (a : Assembly) :
    placeSubroutines definitions unplaced index a =
      unlessFault
        (subroutineFault definitions (reached definitions unplaced (a.queue index)) a.here)
        (a.place definitions (reached definitions unplaced (a.queue index))) := by
  fun_induction placeSubroutines definitions unplaced index a with
  | case1 unplaced index a hcall =>
      have hqueue : a.queue index = [] := by
        rw [Array.getElem?_eq_none_iff] at hcall
        simp [Assembly.queue, hcall]
      simp [hqueue, subroutineFault, Assembly.place_nil]
  | case2 unplaced index a offset name hcall hbody ih =>
      rw [ih, Assembly.queue_of_some hcall, reached_of_none definitions _ hbody]
  | case3 unplaced index a offset name hcall body hbody e hemit =>
      rw [Pattern.emit_eq, Assembly.here_mark] at hemit
      rw [Assembly.queue_of_some hcall, reached_of_some definitions _ hbody]
      cases hfault : body.fault definitions a.here with
      | none => simp [hfault] at hemit
      | some other => simpa [hfault, subroutineFault] using hemit.symm
  | case4 unplaced index a offset name hcall body hbody b hemit ih =>
      rw [Pattern.emit_eq, Assembly.here_mark] at hemit
      cases hfault : body.fault definitions a.here with
      | some e => simp [hfault] at hemit
      | none =>
          simp only [hfault, unlessFault_none, Except.ok.injEq] at hemit
          subst hemit
          -- the calls of the new subroutine wait behind those that wait already
          have hindex : index + 1 ≤ (a.mark name).calls.size :=
            (Array.getElem?_eq_some_iff.mp hcall).1
          have hqueue : ((a.mark name).extend
              (body.instructions definitions a.here ++ [.ret])).queue (index + 1) =
                a.queue (index + 1) ++ body.mentions definitions := by
            rw [Assembly.queue_extend _ _ _ hindex, Assembly.here_mark, calls_append,
              List.map_append, Pattern.calls_instructions]
            simp [Assembly.queue, Assembly.mark, Pattern.mentions, callAt]
          have hhere : ((a.mark name).extend
              (body.instructions definitions a.here ++ [.ret])).here =
                a.here + body.codeSize definitions + 1 := by
            simp [Pattern.span_instructions, size, Nat.add_assoc]
          rw [Assembly.op_ret_eq, Assembly.extend_extend] at ih ⊢
          rw [ih, hqueue, hhere, Assembly.queue_of_some hcall, reached_of_some definitions _ hbody,
            Assembly.place_cons]
          simp [subroutineFault, hfault]

/-! ## Patching calls -/

/-- The first call, in the order of the calls, that leads nowhere or too far. -/
def callFault (starts : Dictionary Nat) : List (Nat × Char) → Option CompileError
  | [] => none
  | (_, name) :: calls =>
      match starts.find? name with
      | none => some .invalidPattern
      | some start => (addressFault start).or (callFault starts calls)

theorem patchCalls_eq (starts : Dictionary Nat) (instructions : List Instruction)
    (front : List UInt8) :
    patchCalls starts (calls front.length instructions) (front ++ drafts instructions).toArray =
      unlessFault (callFault starts (calls front.length instructions))
        (front ++ instructions.flatMap
          (bytes (fun name => (starts.find? name).getD 0) 0)).toArray := by
  induction instructions generalizing front with
  | nil => simp [patchCalls, callFault, drafts]
  | cons instruction instructions ih =>
      have hrest := ih (front ++
        instruction.bytes (fun name => (starts.find? name).getD 0) 0)
      simp only [List.length_append, length_bytes, List.append_assoc] at hrest
      simp only [calls_cons, drafts_cons, List.flatMap_cons]
      cases instruction with
      | call name =>
          simp only [callAt, Option.toList_some, List.singleton_append, patchCalls, callFault]
          cases hstart : starts.find? name with
          | none => rfl
          | some start =>
              simp only [bytes, hstart, Option.getD_some] at hrest ⊢
              rw [patch_eq]
              cases hfault : addressFault start with
              | some e => rfl
              | none => exact hrest
      | halt => exact hrest
      | ret => exact hrest
      | put c => exact hrest
      | jump target => exact hrest
      | pick alternatives => exact hrest

/-! ## Appending tables -/

theorem appendShorts_eq (numbers : List Nat) (code : List UInt8) :
    appendShorts numbers code.toArray =
      unlessFault (numbers.findSome? addressFault) (code ++ shorts numbers).toArray := by
  induction numbers generalizing code with
  | nil => simp [appendShorts, shorts]
  | cons n numbers ih =>
      by_cases h : n ≤ 0xFFFF
      · have hrest := ih (code ++ [(Operand.shortBytes n).1, (Operand.shortBytes n).2])
        simpa [appendShorts, Operand.encodeShort, addressFault, h, shorts] using hrest
      · simp [appendShorts, Operand.encodeShort, addressFault, h]

/-- The first fault in the tables, of which the next one is put at `table`. -/
def tableFault : Nat → List Instruction → Option CompileError
  | _, [] => none
  | table, .pick starts :: instructions =>
      ((addressFault table).or ((starts.length :: starts).findSome? addressFault)).or
        (tableFault (table + 2 + 2 * starts.length) instructions)
  | table, _ :: instructions => tableFault table instructions

@[simp] theorem length_shorts (numbers : List Nat) :
    (shorts numbers).length = 2 * numbers.length := by
  simp [shorts, List.length_flatMap, List.map_const', Nat.mul_comm]

/--
Behind any bytes and in front of any tables, each pick is patched with the place
where its table is appended.
-/
def AppendsTables (startOf : Char → Nat) (instructions : List Instruction) : Prop :=
  ∀ (front tables : List UInt8) (table : Nat),
    table = front.length + span instructions + tables.length →
    appendTables (picks front.length instructions)
        (front ++ (instructions.flatMap (bytes startOf 0) ++ tables)).toArray =
      unlessFault (tableFault table instructions)
        (front ++ (link startOf table instructions ++
          (tables ++ instructions.flatMap Layout.table))).toArray

theorem appendsTables_cons {startOf : Char → Nat} {instruction : Instruction}
    {instructions : List Instruction} (h : AppendsTables startOf instructions)
    (hpick : ∀ offset, pickAt (offset, instruction) = none)
    (hbytes : ∀ table, instruction.bytes startOf 0 = instruction.bytes startOf table)
    (hsize : instruction.tableSize = 0) (hentries : Layout.table instruction = [])
    (hfault : ∀ table, tableFault table (instruction :: instructions) =
      tableFault table instructions) :
    AppendsTables startOf (instruction :: instructions) := by
  intro front tables table htable
  have hrest := h (front ++ instruction.bytes startOf table) tables table (by
    simp [htable, Nat.add_assoc])
  simp only [List.length_append, length_bytes, List.append_assoc] at hrest
  simpa [hpick, hbytes table, hsize, hentries, hfault, link] using hrest

private theorem appendsTables_pick {startOf : Char → Nat} (starts : List Nat)
    {instructions : List Instruction} (h : AppendsTables startOf instructions) :
    AppendsTables startOf (.pick starts :: instructions) := by
  intro front tables table htable
  obtain ⟨rest, hrest⟩ : ∃ rest, instructions.flatMap (bytes startOf 0) = rest := ⟨_, rfl⟩
  have hlength : rest.length = span instructions := by
    rw [← hrest, length_flatMap_bytes]
  have hsize : (front ++ (withAddress .pick 0 ++ (rest ++ tables))).toArray.size = table := by
    simp [htable, hlength, withAddress, size]
    omega
  have hpatch := patch_eq front (rest ++ tables) .pick 0 table
  have hshorts := appendShorts_eq (starts.length :: starts)
    (front ++ (withAddress .pick table ++ (rest ++ tables)))
  -- the table of this pick stands in front of those of the picks behind it
  have hothers := h (front ++ withAddress .pick table)
    (tables ++ shorts (starts.length :: starts)) (table + 2 + 2 * starts.length) (by
      simp [htable, withAddress, size]
      omega)
  simp only [picks_cons, pickAt, Option.toList_some, List.singleton_append,
    List.flatMap_cons, bytes, List.append_assoc, appendTables, hrest]
  rw [hsize, hpatch]
  cases hfault : addressFault table with
  | some e => simp [tableFault, hfault]
  | none =>
      simp only [unlessFault_none]
      rw [hshorts]
      cases hentries : (starts.length :: starts).findSome? addressFault with
      | some e => simp [tableFault, hfault, hentries]
      | none =>
          simp only [List.length_append, withAddress, List.length_cons, List.length_nil,
            Nat.zero_add, List.append_assoc, hrest] at hothers
          simpa [tableFault, hfault, hentries, link, bytes, tableSize, Layout.table,
            withAddress, size, Nat.add_assoc] using hothers

theorem appendTables_eq (startOf : Char → Nat) (instructions : List Instruction) :
    AppendsTables startOf instructions := by
  induction instructions with
  | nil =>
      intro front tables table htable
      simp [appendTables, tableFault, link]
  | cons instruction instructions ih =>
      cases instruction with
      | pick starts => exact appendsTables_pick starts ih
      | halt => exact appendsTables_cons ih (fun _ => rfl) (fun _ => rfl) rfl rfl fun _ => rfl
      | ret => exact appendsTables_cons ih (fun _ => rfl) (fun _ => rfl) rfl rfl fun _ => rfl
      | put c => exact appendsTables_cons ih (fun _ => rfl) (fun _ => rfl) rfl rfl fun _ => rfl
      | jump target =>
          exact appendsTables_cons ih (fun _ => rfl) (fun _ => rfl) rfl rfl fun _ => rfl
      | call name =>
          exact appendsTables_cons ih (fun _ => rfl) (fun _ => rfl) rfl rfl fun _ => rfl

/-! ## The whole program -/

/-- The first fault of a compilation, from the root to the last table. -/
def compileFault (pattern : Pattern) : Option CompileError :=
  let found := subroutines definitions pattern
  let offset := pattern.codeSize definitions + 1
  let code := program definitions pattern
  (pattern.fault definitions 0).or <| (subroutineFault definitions found offset).or <|
    (callFault (subroutineStarts definitions found offset) (calls 0 code)).or <|
      tableFault (span code) code

/-- Without definitions there is nothing but the pattern to go through. -/
theorem compileFault_nil (pattern : Pattern) :
    compileFault [] pattern =
      let code := pattern.instructions [] 0 ++ [.halt]
      (pattern.fault [] 0).or ((callFault [] (calls 0 code)).or (tableFault (span code) code)) := by
  simp only [compileFault, program, subroutines_nil]
  rfl

theorem map_fst_subroutineStarts (found : List (Char × Pattern)) (offset : Nat) :
    (subroutineStarts definitions found offset).map (·.1) = found.map (·.1) := by
  induction found generalizing offset with
  | nil => rfl
  | cons entry found ih =>
      obtain ⟨name, body⟩ := entry
      simp [subroutineStarts, ih]

private theorem callFault_congr {starts others : Dictionary Nat}
    (h : ∀ name, starts.find? name = others.find? name) (calls : List (Nat × Char)) :
    callFault starts calls = callFault others calls := by
  induction calls with
  | nil => rfl
  | cons call calls ih =>
      obtain ⟨offset, name⟩ := call
      simp only [callFault, h, ih]

theorem find?_starts (pattern : Pattern) (name : Char) :
    let starts := subroutineStarts definitions (subroutines definitions pattern)
      (pattern.codeSize definitions + 1)
    (Dictionary.insertAll starts []).find? name = starts.find? name := by
  intro starts
  have hnodup : (starts.map (·.1)).Nodup := by
    rw [map_fst_subroutineStarts]
    exact nodup_reached definitions definitions _
  rw [Dictionary.find?_insertAll name starts [] hnodup]
  simp [Dictionary.find?]

theorem here_primary (pattern : Pattern) :
    (Assembly.empty.extend (pattern.instructions definitions 0 ++ [.halt])).here =
      pattern.codeSize definitions + 1 := by
  have hempty : Assembly.empty.here = 0 := rfl
  simp [Pattern.span_instructions, size, hempty]

theorem queue_primary (pattern : Pattern) :
    (Assembly.empty.extend (pattern.instructions definitions 0 ++ [.halt])).queue 0 =
      pattern.mentions definitions := by
  have hempty : Assembly.empty.here = 0 := rfl
  rw [Assembly.queue_extend _ _ _ (Nat.zero_le _), hempty, calls_append, List.map_append,
    Pattern.calls_instructions]
  simp [Assembly.queue, Assembly.empty, Pattern.mentions, callAt]

/-- The primary code with its subroutines, before anything is linked. -/
theorem place_subroutines (pattern : Pattern) :
    (Assembly.empty.extend (pattern.instructions definitions 0 ++ [.halt])).place definitions
        (subroutines definitions pattern) =
      ⟨(drafts (program definitions pattern)).toArray,
        (calls 0 (program definitions pattern)).toArray,
        (picks 0 (program definitions pattern)).toArray,
        Dictionary.insertAll (subroutineStarts definitions (subroutines definitions pattern)
          (pattern.codeSize definitions + 1)) []⟩ := by
  unfold Assembly.place
  rw [here_primary, Assembly.extend_extend, List.append_assoc]
  apply Assembly.eq_of_toList <;>
    simp [Assembly.extend, Assembly.empty, Assembly.here, program]

/-- Compiling writes the bytes of the layout or meets its first fault. -/
theorem compile_eq (pattern : Pattern) :
    compile pattern definitions =
      unlessFault (compileFault definitions pattern) (assemble definitions pattern).toArray := by
  have hempty : Assembly.empty.here = 0 := rfl
  have hfound : reached definitions definitions (pattern.mentions definitions) =
      subroutines definitions pattern := rfl
  unfold compile compileFault
  rw [Pattern.emit_eq, hempty]
  cases hroot : pattern.fault definitions 0 with
  | some e => simp
  | none =>
      simp only [unlessFault_none, Option.none_or]
      rw [Assembly.op_halt_eq, Assembly.extend_extend, placeSubroutines_eq, queue_primary,
        here_primary, hfound, place_subroutines]
      cases hsubroutines : subroutineFault definitions (subroutines definitions pattern)
          (pattern.codeSize definitions + 1) with
      | some e => simp
      | none =>
          have hcalls := patchCalls_eq
            (Dictionary.insertAll (subroutineStarts definitions (subroutines definitions pattern)
              (pattern.codeSize definitions + 1)) []) (program definitions pattern) []
          have htables := appendTables_eq (startOf definitions pattern)
            (program definitions pattern) [] [] (span (program definitions pattern)) (by simp)
          rw [callFault_congr (find?_starts definitions pattern)] at hcalls
          simp only [find?_starts definitions pattern] at hcalls
          simp only [List.length_nil, List.nil_append, List.append_nil] at hcalls htables
          simp only [unlessFault_none, Option.none_or]
          rw [hcalls]
          cases hlinks : callFault (subroutineStarts definitions (subroutines definitions pattern)
              (pattern.codeSize definitions + 1)) (calls 0 (program definitions pattern)) with
          | some e => simp
          | none =>
              simp only [unlessFault_none, Option.none_or]
              exact htables

end Wordmill
