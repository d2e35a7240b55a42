import Wordmill.Proofs.Bytecode.Instruction

/-!
# Emission

Writing a pattern front to back appends exactly its instructions, with the
operands of calls and picks still zero, or reports the first fault that is met.
The jumps of a choice are patched before the choice ends, so that none of them
is left open.
-/

namespace Wordmill

open Instruction

/-- The outcome of an action that only a fault can stop. -/
def unlessFault {α : Type} (fault : Option CompileError) (value : α) : Except CompileError α :=
  match fault with
  | some e => .error e
  | none => .ok value

@[simp] theorem unlessFault_some {α : Type} (e : CompileError) (value : α) :
    unlessFault (some e) value = .error e := rfl

@[simp] theorem unlessFault_none {α : Type} (value : α) :
    unlessFault none value = .ok value := rfl

theorem ok_bind {ε α β : Type} (value : α) (proceed : α → Except ε β) :
    (Except.ok value >>= proceed) = proceed value := rfl

theorem exists_of_bind_eq_ok {ε α β : Type} {first : Except ε α} {proceed : α → Except ε β}
    {result : β} (h : first >>= proceed = .ok result) :
    ∃ value, first = .ok value ∧ proceed value = .ok result := by
  cases first with
  | error e => contradiction
  | ok value => exact ⟨value, rfl, h⟩

/-- An address has to fit into two bytes. -/
def addressFault (target : Nat) : Option CompileError :=
  if target ≤ 0xFFFF then none else some (.operand (.tooLarge target))

/-! ## Patching -/

theorem patch_eq (front back : List UInt8) (opcode : Opcode) (old target : Nat) :
    patch (front ++ (withAddress opcode old ++ back)).toArray front.length target =
      unlessFault (addressFault target)
        (front ++ (withAddress opcode target ++ back)).toArray := by
  by_cases h : target ≤ 0xFFFF
  · simp [patch, Operand.encodeShort, addressFault, h, withAddress, List.set_append_right]
  · simp [patch, Operand.encodeShort, addressFault, h]

theorem patch_of_fault {target : Nat} {e : CompileError} (h : addressFault target = some e)
    (code : Bytecode) (offset : Nat) : patch code offset target = .error e := by
  unfold addressFault at h
  split at h
  · contradiction
  · rename_i hlarge
    simpa [patch, Operand.encodeShort, hlarge] using h

/-! ## Appending instructions -/

/-- Bytes with the operands of calls and picks left zero. -/
def Instruction.drafts (instructions : List Instruction) : List UInt8 :=
  instructions.flatMap (bytes (fun _ => 0) 0)

@[simp] theorem Instruction.length_drafts (instructions : List Instruction) :
    (drafts instructions).length = span instructions :=
  length_flatMap_bytes _ _ instructions

@[simp] theorem Instruction.drafts_cons (instruction : Instruction)
    (instructions : List Instruction) :
    drafts (instruction :: instructions) =
      instruction.bytes (fun _ => 0) 0 ++ drafts instructions := by
  simp [drafts]

@[simp] theorem Instruction.drafts_append (front back : List Instruction) :
    drafts (front ++ back) = drafts front ++ drafts back := by
  simp [drafts]

namespace Assembly

def extend (a : Assembly) (instructions : List Instruction) : Assembly :=
  ⟨a.code ++ (drafts instructions).toArray,
    a.calls ++ (Instruction.calls a.here instructions).toArray,
    a.picks ++ (Instruction.picks a.here instructions).toArray,
    a.starts⟩

@[simp] theorem here_extend (a : Assembly) (instructions : List Instruction) :
    (a.extend instructions).here = a.here + span instructions := by
  simp [here, extend]

@[simp] theorem extend_nil (a : Assembly) : a.extend [] = a := by
  simp [extend, drafts]

theorem extend_extend (a : Assembly) (front back : List Instruction) :
    (a.extend front).extend back = a.extend (front ++ back) := by
  have hhere : (a.extend front).here = a.here + span front := here_extend a front
  unfold extend at hhere ⊢
  simp only [hhere, drafts_append, calls_append, picks_append, List.append_toArray,
    Array.append_assoc]

theorem eq_of_toList {a b : Assembly} (hcode : a.code.toList = b.code.toList)
    (hcalls : a.calls.toList = b.calls.toList) (hpicks : a.picks.toList = b.picks.toList)
    (hstarts : a.starts = b.starts) : a = b := by
  cases a
  cases b
  simp only [Array.toList_inj] at hcode hcalls hpicks
  subst hcode hcalls hpicks hstarts
  rfl

/-- What a single instruction adds to the code and to the two lists of open places. -/
theorem extend_singleton (a : Assembly) (instruction : Instruction) :
    a.extend [instruction] =
      ⟨a.code ++ (instruction.bytes (fun _ => 0) 0).toArray,
        a.calls ++ (callAt (a.here, instruction)).toList.toArray,
        a.picks ++ (pickAt (a.here, instruction)).toList.toArray, a.starts⟩ := by
  apply eq_of_toList <;> simp [extend, drafts]

theorem put_eq (a : Assembly) (c : Char) : a.put c = a.extend [.put c] := by
  rw [extend_singleton]
  apply eq_of_toList <;> simp [put, bytes, callAt, pickAt]

private theorem call_eq (a : Assembly) (name : Char) : a.call name = a.extend [.call name] := by
  rw [extend_singleton]
  apply eq_of_toList <;>
    simp [call, openCode, bytes, withAddress, Operand.shortBytes, callAt, pickAt, here]

private theorem jump_eq (a : Assembly) : a.jump = a.extend [.jump 0] := by
  rw [extend_singleton]
  apply eq_of_toList <;>
    simp [jump, openCode, bytes, withAddress, Operand.shortBytes, callAt, pickAt]

theorem pick_eq (a : Assembly) : a.pick = a.extend [.pick []] := by
  rw [extend_singleton]
  apply eq_of_toList <;>
    simp [pick, openCode, bytes, withAddress, Operand.shortBytes, callAt, pickAt, here]

theorem op_halt_eq (a : Assembly) : a.op .halt = a.extend [.halt] := by
  rw [extend_singleton]
  apply eq_of_toList <;> simp [op, bytes, callAt, pickAt]

theorem op_ret_eq (a : Assembly) : a.op .ret = a.extend [.ret] := by
  rw [extend_singleton]
  apply eq_of_toList <;> simp [op, bytes, callAt, pickAt]

/-- The alternatives of a PICK are filled in behind everything that they wrote. -/
theorem setPick_extend (a : Assembly) (starts : List Nat) (instructions : List Instruction) :
    (a.extend (.pick [] :: instructions)).setPick a.picks.size a.here starts =
      a.extend (.pick starts :: instructions) := by
  simp [setPick, extend, bytes, size, callAt, pickAt]

private theorem foldl_put (chars : List Char) (a : Assembly) :
    chars.foldl put a = a.extend (chars.map .put) := by
  induction chars generalizing a with
  | nil => simp
  | cons c chars ih =>
      rw [List.foldl_cons, ih, put_eq, extend_extend]
      rfl

private theorem foldl_char (definitions : Dictionary Pattern) (chars : List Char) (a : Assembly) :
    chars.foldl (char definitions) a = a.extend (chars.map (ofChar definitions)) := by
  induction chars generalizing a with
  | nil => simp
  | cons c chars ih =>
      have hchar : char definitions a c = a.extend [ofChar definitions c] := by
        unfold char ofChar
        split
        · exact call_eq a c
        · exact put_eq a c
      rw [List.foldl_cons, ih, hchar, extend_extend]
      rfl

end Assembly

namespace Pattern

variable (definitions : Dictionary Pattern)

/-! ## Faults -/

theorem two_le_length {alternatives : List Pattern}
    (h : ¬(Pattern.choice alternatives).isEmpty = true) : 2 ≤ alternatives.length := by
  simp only [isEmpty, decide_eq_true_eq] at h
  omega

mutual

/--
The first fault met while the instructions of a pattern are written from
`offset` on: a node with nothing in it as it is entered, or a choice that ends
too far off as it is left.
-/
def fault (pattern : Pattern) (offset : Nat) : Option CompileError :=
  if pattern.isEmpty then some .invalidPattern
  else match pattern with
    | .sequence parts => faultEach parts offset
    | .text _ | .quoted _ => none
    | .choice alternatives =>
        (faultBetween alternatives (offset + 3)).or
          (addressFault (offset + codeSize definitions (.choice alternatives)))
    | .optional body => fault body (offset + 3)

def faultEach : List Pattern → Nat → Option CompileError
  | [], _ => none
  | part :: parts, offset =>
      (fault part offset).or (faultEach parts (offset + codeSize definitions part))

def faultBetween : List Pattern → Nat → Option CompileError
  | [], _ => none
  | alternative :: others, offset =>
      (fault alternative offset).or
        (faultBetween others (offset + codeSize definitions alternative + 3))

end

/-- The offsets of the jumps between alternatives. -/
def jumpSites : List Pattern → Nat → List Nat
  | [], _ => []
  | [_], _ => []
  | alternative :: next :: others, offset =>
      (offset + codeSize definitions alternative) ::
        jumpSites (next :: others) (offset + codeSize definitions alternative + 3)

/-- Patching the jumps between alternatives gives the alternatives with their final jumps. -/
theorem patchAll_jumpSites (target : Nat) (alternatives : List Pattern) (front : List UInt8)
    (h : addressFault target = none) :
    patchAll target (jumpSites definitions alternatives front.length)
        (front ++ drafts (instructionsBetween definitions 0 alternatives front.length)).toArray =
      .ok (front ++
        drafts (instructionsBetween definitions target alternatives front.length)).toArray := by
  induction alternatives generalizing front with
  | nil => rfl
  | cons alternative others ih =>
      cases others with
      | nil => rfl
      | cons next others =>
          have hfront (old : Nat) :
              (front ++ drafts (alternative.instructions definitions front.length) ++
                withAddress .jump old).length =
                  front.length + alternative.codeSize definitions + 3 := by
            simp [span_instructions, withAddress]
            omega
          have hpatch := patch_eq
            (front ++ drafts (alternative.instructions definitions front.length))
            (drafts (instructionsBetween definitions 0 (next :: others)
              (front.length + alternative.codeSize definitions + 3))) .jump 0 target
          have hrest := ih
            (front ++ drafts (alternative.instructions definitions front.length) ++
              withAddress .jump target)
          rw [hfront] at hrest
          rw [h] at hpatch
          simp only [List.length_append, length_drafts, span_instructions, unlessFault_none]
            at hpatch
          simp only [jumpSites, patchAll, instructionsBetween, drafts_append, drafts_cons, bytes]
          simp only [← List.append_assoc] at hpatch hrest ⊢
          rw [hpatch]
          exact hrest

/-- The calls and picks of alternatives stand where they are whatever the jumps lead to. -/
theorem sites_instructionsBetween (target other : Nat) (alternatives : List Pattern)
    (offset : Nat) :
    Instruction.calls offset (instructionsBetween definitions target alternatives offset) =
        Instruction.calls offset (instructionsBetween definitions other alternatives offset) ∧
      Instruction.picks offset (instructionsBetween definitions target alternatives offset) =
        Instruction.picks offset (instructionsBetween definitions other alternatives offset) := by
  induction alternatives generalizing offset with
  | nil => exact ⟨rfl, rfl⟩
  | cons alternative others ih =>
      cases others with
      | nil => exact ⟨rfl, rfl⟩
      | cons next others =>
          obtain ⟨hcalls, hpicks⟩ := ih (offset + alternative.codeSize definitions + 3)
          constructor
          · simpa [instructionsBetween, span_instructions, callAt, size] using hcalls
          · simpa [instructionsBetween, span_instructions, pickAt, size] using hpicks

private theorem jumpSites_ne_nil {alternatives : List Pattern} (hlength : 2 ≤ alternatives.length)
    (offset : Nat) : jumpSites definitions alternatives offset ≠ [] := by
  cases alternatives with
  | nil => simp at hlength
  | cons alternative others =>
      cases others with
      | nil => simp at hlength
      | cons next others => exact List.cons_ne_nil _ _

theorem closeChoice_ok (index offset : Nat) (a : Assembly) (starts jumps : List Nat) :
    closeChoice index offset (.ok (a, starts, jumps)) =
      match patchAll a.code.size jumps a.code with
      | .error e => .error e
      | .ok code => .ok (Assembly.setPick { a with code := code } index offset starts) := rfl

/-- The jumps of a choice are patched and its alternatives noted. -/
theorem closeChoice_eq (a : Assembly) (alternatives : List Pattern)
    (hlength : 2 ≤ alternatives.length) :
    closeChoice a.picks.size a.here
        (.ok (a.extend (.pick [] :: instructionsBetween definitions 0 alternatives (a.here + 3)),
          alternativeStarts definitions alternatives (a.here + 3),
          jumpSites definitions alternatives (a.here + 3))) =
      unlessFault (addressFault (a.here + codeSize definitions (.choice alternatives)))
        (a.extend (instructions definitions (.choice alternatives) a.here)) := by
  let target := a.here + codeSize definitions (.choice alternatives)
  let front : List UInt8 := a.code.toList ++ withAddress .pick 0
  have hfront : front.length = a.here + 3 := by simp [front, withAddress, Assembly.here]
  have hcode (starts : List Nat) (target : Nat) :
      (a.extend (.pick starts ::
        instructionsBetween definitions target alternatives (a.here + 3))).code =
          (front ++ drafts (instructionsBetween definitions target alternatives
            (a.here + 3))).toArray := by
    simp [Assembly.extend, front, bytes]
  have hsize : (a.extend (.pick [] ::
      instructionsBetween definitions 0 alternatives (a.here + 3))).code.size = target := by
    rw [hcode]
    simp [hfront, span_instructionsBetween, codeSize, target]
    omega
  rw [closeChoice_ok, hsize]
  cases hfault : addressFault target with
  | some e =>
      -- a choice has a jump to patch, which reports the fault
      obtain ⟨site, sites, hsites⟩ :=
        List.exists_cons_of_ne_nil (jumpSites_ne_nil definitions hlength (a.here + 3))
      simp [hsites, patchAll, patch_of_fault hfault]
  | none =>
      have hpatch := patchAll_jumpSites definitions target alternatives front hfault
      rw [hfront] at hpatch
      obtain ⟨hcalls, hpicks⟩ :=
        sites_instructionsBetween definitions 0 target alternatives (a.here + 3)
      have hextend : { a.extend (.pick [] ::
          instructionsBetween definitions 0 alternatives (a.here + 3)) with
            code := (front ++ drafts (instructionsBetween definitions target alternatives
              (a.here + 3))).toArray } =
          a.extend (.pick [] ::
            instructionsBetween definitions target alternatives (a.here + 3)) := by
        apply Assembly.eq_of_toList
        · rw [hcode]
        · simp [Assembly.extend, callAt, size, hcalls]
        · simp [Assembly.extend, pickAt, size, hpicks]
        · rfl
      rw [hcode, hpatch]
      simp only [unlessFault_none, hextend, Assembly.setPick_extend]
      rfl

/-! ## The instructions that are written -/

mutual

/-- Writing a pattern appends its instructions or meets its first fault. -/
theorem emit_eq (pattern : Pattern) (a : Assembly) :
    pattern.emit definitions a =
      unlessFault (pattern.fault definitions a.here)
        (a.extend (pattern.instructions definitions a.here)) := by
  unfold emit fault
  by_cases hempty : pattern.isEmpty
  · simp [hempty]
  · simp only [hempty, Bool.false_eq_true, if_false]
    cases pattern with
    | sequence parts => exact emitEach_eq parts a
    | text chars => simp [instructions, Assembly.foldl_char]
    | quoted chars => simp [instructions, Assembly.foldl_put]
    | choice alternatives =>
        have hlength := two_le_length hempty
        have halternatives := emitAlternatives_eq alternatives a.pick [a.here + 3] []
        simp only [Assembly.here_pick] at halternatives
        simp only [halternatives]
        cases hfault : faultBetween definitions alternatives (a.here + 3) with
        | some e => simp [closeChoice]
        | none =>
            have hstarts : [a.here + 3].reverse ++
                (alternativeStarts definitions alternatives (a.here + 3)).tail =
                  alternativeStarts definitions alternatives (a.here + 3) := by
              cases alternatives with
              | nil => simp at hlength
              | cons alternative others => rfl
            rw [Assembly.pick_eq, Assembly.extend_extend, hstarts]
            exact closeChoice_eq definitions a alternatives hlength
    | optional body =>
        have hbody := emit_eq body a.pick
        simp only [Assembly.here_pick] at hbody
        simp only [hbody]
        cases hfault : body.fault definitions (a.here + 3) with
        | some e => simp [closeOptional]
        | none =>
            simp only [unlessFault_none, closeOptional, Assembly.pick_eq, Assembly.extend_extend]
            simp [Assembly.setPick_extend, instructions, span_instructions, size, Nat.add_assoc]

theorem emitEach_eq (parts : List Pattern) (a : Assembly) :
    emitEach definitions parts a =
      unlessFault (faultEach definitions parts a.here)
        (a.extend (instructionsEach definitions parts a.here)) := by
  match parts with
  | [] => simp [emitEach, faultEach, instructionsEach]
  | part :: parts =>
      simp only [emitEach, faultEach, instructionsEach]
      rw [emit_eq part a]
      cases part.fault definitions a.here with
      | some e => simp
      | none =>
          simp only [unlessFault_none, Option.none_or]
          rw [emitEach_eq parts, Assembly.here_extend, span_instructions, Assembly.extend_extend]

theorem emitAlternatives_eq (alternatives : List Pattern) (a : Assembly) (starts jumps : List Nat) :
    emitAlternatives definitions alternatives a starts jumps =
      unlessFault (faultBetween definitions alternatives a.here)
        (a.extend (instructionsBetween definitions 0 alternatives a.here),
          starts.reverse ++ (alternativeStarts definitions alternatives a.here).tail,
          jumps.reverse ++ jumpSites definitions alternatives a.here) := by
  match alternatives with
  | [] => simp [emitAlternatives, faultBetween, instructionsBetween, alternativeStarts, jumpSites]
  | [last] =>
      simp only [emitAlternatives, faultBetween, instructionsBetween, alternativeStarts, jumpSites]
      rw [emit_eq last a]
      cases last.fault definitions a.here <;> simp
  | alternative :: next :: others =>
      rw [emitAlternatives, faultBetween, emit_eq alternative a]
      cases alternative.fault definitions a.here with
      | some e => simp
      | none =>
          simp only [unlessFault_none, Option.none_or, List.isEmpty_cons, Bool.false_eq_true,
            if_false]
          rw [emitAlternatives_eq (next :: others)]
          simp [Assembly.jump_eq, Assembly.extend_extend, instructionsBetween, alternativeStarts,
            jumpSites, span_instructions, size, Nat.add_assoc]

end

end Pattern

end Wordmill
