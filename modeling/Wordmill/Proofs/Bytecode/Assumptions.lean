import Wordmill.Proofs.Bytecode.Failure

/-!
# What the assembler takes for granted

The assembler with each thing that it relies on looked up instead: an operand
to be patched lies in the code, a name that is called has a definition and a
start, and what is put into a table fits.  None of these assumptions is ever
broken, whatever the pattern and the definitions.
-/

namespace Wordmill

open Instruction Layout

inductive Assumption where
  | someAlternative
  | oneChar
  | insideCode
  | defined
  | placed
  | countFits
  | entryFits
  deriving DecidableEq, Repr

namespace Guarded

/-- A failure is an outcome of assembling; a broken assumption is none. -/
inductive Stop where
  | failure (error : CompileError)
  | broken (assumption : Assumption)
  deriving DecidableEq, Repr

def lift {α : Type} : Except CompileError α → Except Stop α
  | .error e => .error (.failure e)
  | .ok value => .ok value

def patch (code : Bytecode) (offset target : Nat) : Except Stop Bytecode :=
  match Operand.encodeShort target with
  | .error e => .error (.failure (.operand e))
  | .ok (high, low) =>
      if offset + 2 < code.size then
        .ok ((code.setIfInBounds (offset + 1) high).setIfInBounds (offset + 2) low)
      else .error (.broken .insideCode)

def patchAll (target : Nat) : List Nat → Bytecode → Except Stop Bytecode
  | [], code => .ok code
  | offset :: offsets, code => do
      let code ← patch code offset target
      patchAll target offsets code

def put (a : Assembly) (c : Char) : Except Stop Assembly :=
  match Operand.encodeText [c] with
  | .error _ => .error (.broken .oneChar)
  | .ok bytes => .ok { a with code := a.code.push Opcode.put.toByte ++ bytes.toArray }

variable (definitions : Dictionary Pattern)

def char (a : Assembly) (c : Char) : Except Stop Assembly :=
  if definitions.hasName c then .ok (a.call c) else put a c

mutual

def emit (pattern : Pattern) (a : Assembly) : Except Stop Assembly :=
  if pattern.isEmpty then .error (.failure .invalidPattern)
  else match pattern with
    | .sequence parts => emitEach parts a
    | .text chars => chars.foldlM (char definitions) a
    | .quoted chars => chars.foldlM put a
    | .choice alternatives =>
        -- one jump less than there are alternatives
        if alternatives.isEmpty then .error (.broken .someAlternative)
        else do
          let (b, starts, jumps) ← emitAlternatives alternatives a.pick [a.here + 3] []
          let code ← patchAll b.code.size jumps b.code
          return Assembly.setPick { b with code := code } a.picks.size a.here starts
    | .optional body => do
        let b ← emit body a.pick
        return b.setPick a.picks.size a.here [a.here + 3, b.here]

def emitEach (parts : List Pattern) (a : Assembly) : Except Stop Assembly :=
  match parts with
  | [] => .ok a
  | part :: parts => do
      let b ← emit part a
      emitEach parts b

def emitAlternatives (alternatives : List Pattern) (a : Assembly) (starts jumps : List Nat) :
    Except Stop (Assembly × List Nat × List Nat) :=
  match alternatives with
  | [] => .ok (a, starts.reverse, jumps.reverse)
  | alternative :: others => do
      let b ← emit alternative a
      if others.isEmpty then return (b, starts.reverse, jumps.reverse)
      else emitAlternatives others b.jump (b.jump.here :: starts) (b.here :: jumps)

end

/-- A name that waits for no subroutine has got one. -/
def placeSubroutines (unplaced : Dictionary Pattern) (index : Nat) (a : Assembly) :
    Except Stop Assembly :=
  match _hcall : a.calls[index]? with
  | none => .ok a
  | some (_, name) =>
      match _hbody : unplaced.find? name with
      | none =>
          if a.starts.hasName name then placeSubroutines unplaced (index + 1) a
          else .error (.broken .defined)
      | some body =>
          match emit definitions body (a.mark name) with
          | .error e => .error e
          | .ok b => placeSubroutines (unplaced.erase name) (index + 1) (b.op .ret)
termination_by (unplaced.length, a.calls.size - index)
decreasing_by
  · have := (Array.getElem?_eq_some_iff.mp _hcall).1
    exact Prod.Lex.right _ (by omega)
  · exact Prod.Lex.left _ _ (Dictionary.length_erase_lt _hbody)

def patchCalls (starts : Dictionary Nat) :
    List (Nat × Char) → Bytecode → Except Stop Bytecode
  | [], code => .ok code
  | (offset, name) :: calls, code =>
      match starts.find? name with
      | none => .error (.broken .placed)
      | some start => do
          let code ← patch code offset start
          patchCalls starts calls code

def appendShort (assumption : Assumption) (code : Bytecode) (n : Nat) : Except Stop Bytecode :=
  match Operand.encodeShort n with
  | .error _ => .error (.broken assumption)
  | .ok (high, low) => .ok ((code.push high).push low)

def appendTables : List (Nat × List Nat) → Bytecode → Except Stop Bytecode
  | [], code => .ok code
  | (offset, starts) :: picks, code => do
      let code ← patch code offset code.size
      let code ← appendShort .countFits code starts.length
      let code ← starts.foldlM (appendShort .entryFits) code
      appendTables picks code

def compile (pattern : Pattern) : Except Stop Bytecode := do
  let a ← emit definitions pattern .empty
  let a ← placeSubroutines definitions definitions 0 (a.op .halt)
  let code ← patchCalls a.starts a.calls.toList a.code
  appendTables a.picks.toList code

/-! ## Emission -/

theorem lift_bind {α β : Type} (outcome : Except CompileError α) (proceed : α → Except Stop β) :
    (lift outcome >>= proceed) =
      match outcome with
      | .error e => .error (.failure e)
      | .ok value => proceed value := by
  cases outcome <;> rfl

theorem patch_eq {code : Bytecode} {offset : Nat} (h : offset + 2 < code.size) (target : Nat) :
    patch code offset target = lift (Wordmill.patch code offset target) := by
  unfold patch Wordmill.patch
  cases Operand.encodeShort target with
  | error e => rfl
  | ok bytes => exact if_pos h

private theorem patchAll_eq {offsets : List Nat} {code : Bytecode}
    (h : ∀ offset ∈ offsets, offset + 2 < code.size) (target : Nat) :
    patchAll target offsets code = lift (Wordmill.patchAll target offsets code) := by
  induction offsets generalizing code with
  | nil => rfl
  | cons offset offsets ih =>
      rw [patchAll, patch_eq (h offset List.mem_cons_self), lift_bind, Wordmill.patchAll]
      cases hpatch : Wordmill.patch code offset target with
      | error e => rfl
      | ok patched =>
          apply ih
          intro other hother
          rw [size_patch hpatch]
          exact h other (List.mem_cons_of_mem _ hother)

theorem put_eq (a : Assembly) (c : Char) : put a c = .ok (a.put c) := by
  simp [put, Operand.encodeText, Text.Utf8.encode, Assembly.put]

private theorem char_eq (a : Assembly) (c : Char) :
    char definitions a c = .ok (a.char definitions c) := by
  unfold char Assembly.char
  split
  · rfl
  · exact put_eq a c

theorem foldlM_eq {α : Type} {step : Assembly → α → Except Stop Assembly}
    {next : Assembly → α → Assembly} (h : ∀ a item, step a item = .ok (next a item))
    (items : List α) (a : Assembly) : items.foldlM step a = .ok (items.foldl next a) := by
  induction items generalizing a with
  | nil => rfl
  | cons item items ih =>
      rw [List.foldlM_cons, h, ok_bind, ih, List.foldl_cons]

private theorem lt_of_mem_jumpSites (target : Nat) (alternatives : List Pattern) (offset : Nat)
    {site : Nat} (h : site ∈ Pattern.jumpSites definitions alternatives offset) :
    site + 2 < offset +
      span (Pattern.instructionsBetween definitions target alternatives offset) := by
  induction alternatives generalizing offset with
  | nil => contradiction
  | cons alternative others ih =>
      cases others with
      | nil => contradiction
      | cons next others =>
          rw [Pattern.instructionsBetween, span_append, span_cons, Pattern.span_instructions]
          rcases List.mem_cons.mp h with rfl | h
          · simp only [size]
            omega
          · have := ih _ h
            simp only [size]
            omega

mutual

theorem emit_eq (pattern : Pattern) (a : Assembly) :
    emit definitions pattern a = lift (pattern.emit definitions a) := by
  unfold emit Pattern.emit
  by_cases hempty : pattern.isEmpty
  · simp only [if_pos hempty]
    rfl
  · simp only [if_neg hempty]
    cases pattern with
    | sequence parts => exact emitEach_eq parts a
    | text chars => exact foldlM_eq (char_eq definitions) chars a
    | quoted chars => exact foldlM_eq put_eq chars a
    | choice alternatives =>
        have hlength := Pattern.two_le_length hempty
        have hsome : ¬alternatives.isEmpty = true := by
          rw [List.isEmpty_iff]
          rintro rfl
          contradiction
        simp only [if_neg hsome]
        rw [emitAlternatives_eq alternatives, lift_bind, Pattern.emitAlternatives_eq]
        cases Pattern.faultBetween definitions alternatives a.pick.here with
        | some e => rfl
        | none =>
            let b := a.pick.extend
              (Pattern.instructionsBetween definitions 0 alternatives a.pick.here)
            let jumps := Pattern.jumpSites definitions alternatives a.pick.here
            have hinside (site : Nat) (hsite : site ∈ jumps) : site + 2 < b.code.size := by
              have hsize : b.here = _ := Assembly.here_extend a.pick _
              have := lt_of_mem_jumpSites definitions 0 alternatives a.pick.here hsite
              rw [← hsize] at this
              exact this
            have hpatch := patchAll_eq hinside b.code.size
            rw [unlessFault_none, Pattern.closeChoice_ok]
            simp only [List.reverse_nil, List.nil_append]
            rw [hpatch, lift_bind]
            cases Wordmill.patchAll b.code.size jumps b.code <;> rfl
    | optional body =>
        simp only [emit_eq body, lift_bind]
        cases body.emit definitions a.pick <;> rfl

theorem emitEach_eq (parts : List Pattern) (a : Assembly) :
    emitEach definitions parts a = lift (Pattern.emitEach definitions parts a) := by
  match parts with
  | [] => rfl
  | part :: parts =>
      rw [emitEach, Pattern.emitEach, emit_eq part, lift_bind]
      cases part.emit definitions a with
      | error e => rfl
      | ok b => exact emitEach_eq parts b

theorem emitAlternatives_eq (alternatives : List Pattern) (a : Assembly)
    (starts jumps : List Nat) :
    emitAlternatives definitions alternatives a starts jumps =
      lift (Pattern.emitAlternatives definitions alternatives a starts jumps) := by
  match alternatives with
  | [] => rfl
  | alternative :: others =>
      rw [emitAlternatives, Pattern.emitAlternatives, emit_eq alternative, lift_bind]
      cases alternative.emit definitions a with
      | error e => rfl
      | ok b =>
          simp only
          split
          · rfl
          · exact emitAlternatives_eq others _ _ _

end

/-! ## Linking -/

/-- Only definitions are called, and each of them waits for a subroutine or has one. -/
structure Covers (unplaced : Dictionary Pattern) (a : Assembly) : Prop where
  called : ∀ call ∈ a.calls, definitions.hasName call.2 = true
  known : ∀ name, definitions.hasName name = true →
    unplaced.hasName name = true ∨ a.starts.hasName name = true

theorem hasName_of_mem_calls {pattern : Pattern} {offset : Nat} {call : Nat × Char}
    (h : call ∈ calls offset (pattern.instructions definitions offset)) :
    definitions.hasName call.2 = true := by
  have hmem := List.mem_map_of_mem (f := (·.2)) h
  rw [Pattern.calls_instructions] at hmem
  exact (List.mem_filter.mp hmem).2

private theorem covers_primary (pattern : Pattern) :
    Covers definitions definitions
      (Assembly.empty.extend (pattern.instructions definitions 0 ++ [.halt])) where
  called := by
    intro call hcall
    have hcall : call ∈ calls 0 (pattern.instructions definitions 0) := by
      simpa [Assembly.extend, Assembly.empty, Assembly.here, callAt] using hcall
    exact hasName_of_mem_calls definitions hcall
  known := fun _ hname => .inl hname

variable {definitions}

/-- To write a subroutine takes its name from those that wait. -/
theorem Covers.place {unplaced : Dictionary Pattern} {a : Assembly}
    (h : Covers definitions unplaced a) (name : Char) (body : Pattern) :
    Covers definitions (unplaced.erase name)
      ((a.mark name).extend (body.instructions definitions a.here ++ [.ret])) where
  called := by
    intro call hcall
    simp only [Assembly.extend, Array.mem_append, List.mem_toArray, calls_append, calls_cons,
      callAt, Option.toList_none, calls_nil, List.append_nil, Assembly.here_mark] at hcall
    rcases hcall with hcall | hcall
    · exact h.called call hcall
    · exact hasName_of_mem_calls definitions hcall
  known := by
    intro other hother
    rw [← Dictionary.isSome_find?, ← Dictionary.isSome_find?, Dictionary.find?_erase]
    change _ ∨ (Dictionary.find? other (a.starts.insert name a.here)).isSome = true
    rw [Dictionary.find?_insert]
    by_cases hname : other = name
    · exact .inr (by rw [if_pos hname]; rfl)
    · rw [if_neg hname, if_neg hname, Dictionary.isSome_find?, Dictionary.isSome_find?]
      exact h.known other hother

private theorem placeSubroutines_of_placed {unplaced : Dictionary Pattern} {index offset : Nat}
    {name : Char} {a : Assembly} (hcall : a.calls[index]? = some (offset, name))
    (hbody : unplaced.find? name = none) (hstart : a.starts.hasName name = true) :
    placeSubroutines definitions unplaced index a =
      placeSubroutines definitions unplaced (index + 1) a := by
  rw [placeSubroutines]
  split
  · simp_all
  · rename_i hfound
    rw [hcall] at hfound
    cases hfound
    split <;> simp_all

theorem placeSubroutines_of_waiting {unplaced : Dictionary Pattern} {index offset : Nat}
    {name : Char} {a : Assembly} {body : Pattern}
    (hcall : a.calls[index]? = some (offset, name)) (hbody : unplaced.find? name = some body) :
    placeSubroutines definitions unplaced index a =
      match lift (body.emit definitions (a.mark name)) with
      | .error e => .error e
      | .ok b => placeSubroutines definitions (unplaced.erase name) (index + 1) (b.op .ret) := by
  rw [placeSubroutines, ← emit_eq]
  split
  · simp_all
  · rename_i hfound
    rw [hcall] at hfound
    cases hfound
    split <;> simp_all

theorem placeSubroutines_eq {unplaced : Dictionary Pattern} {index : Nat} {a : Assembly}
    (h : Covers definitions unplaced a) :
    placeSubroutines definitions unplaced index a =
      lift (Wordmill.placeSubroutines definitions unplaced index a) := by
  fun_induction Wordmill.placeSubroutines definitions unplaced index a with
  | case1 unplaced index a hcall =>
      rw [placeSubroutines]
      split
      · rfl
      · simp_all
  | case2 unplaced index a offset name hcall hbody ih =>
      have hname := h.called _ (Array.mem_of_getElem? hcall)
      have hstart : a.starts.hasName name = true := by
        apply (h.known name hname).resolve_left
        rw [← Dictionary.isSome_find?, hbody]
        exact Bool.false_ne_true
      rw [placeSubroutines_of_placed hcall hbody hstart, ih h]
  | case3 unplaced index a offset name hcall body hbody e hemit =>
      rw [placeSubroutines_of_waiting hcall hbody, hemit]
      rfl
  | case4 unplaced index a offset name hcall body hbody b hemit ih =>
      rw [placeSubroutines_of_waiting hcall hbody, hemit]
      apply ih
      have hplace := h.place name body
      rw [Pattern.emit_eq, Assembly.here_mark] at hemit
      cases hfault : body.fault definitions a.here with
      | some e => simp [hfault] at hemit
      | none =>
          simp only [hfault, unlessFault_none, Except.ok.injEq] at hemit
          rw [← hemit, Assembly.op_ret_eq, Assembly.extend_extend]
          exact hplace

theorem patchCalls_eq {starts : Dictionary Nat} {calls : List (Nat × Char)} {code : Bytecode}
    (h : ∀ call ∈ calls, starts.hasName call.2 = true ∧ call.1 + 2 < code.size) :
    patchCalls starts calls code = lift (Wordmill.patchCalls starts calls code) := by
  induction calls generalizing code with
  | nil => rfl
  | cons call calls ih =>
      obtain ⟨offset, name⟩ := call
      obtain ⟨hname, hinside⟩ := h _ List.mem_cons_self
      obtain ⟨start, hstart⟩ := Option.isSome_iff_exists.mp
        ((Dictionary.isSome_find? name starts).trans hname)
      simp only [patchCalls, Wordmill.patchCalls, hstart]
      rw [patch_eq hinside, lift_bind]
      cases hpatch : Wordmill.patch code offset start with
      | error e => rfl
      | ok patched =>
          apply ih
          intro call hcall
          rw [size_patch hpatch]
          exact h call (List.mem_cons_of_mem _ hcall)

theorem foldlM_appendShort {numbers : List Nat} (h : ∀ n ∈ numbers, n ≤ 0xFFFF)
    (assumption : Assumption) (code : List UInt8) :
    numbers.foldlM (appendShort assumption) code.toArray =
      .ok (code ++ shorts numbers).toArray := by
  induction numbers generalizing code with
  | nil => simp [shorts, pure, Except.pure]
  | cons n numbers ih =>
      have hshort : appendShort assumption code.toArray n = .ok (code ++ shorts [n]).toArray := by
        simp [appendShort, Operand.encodeShort, h n List.mem_cons_self, shorts]
      rw [List.foldlM_cons, hshort, ok_bind, ih fun m hm => h m (List.mem_cons_of_mem _ hm)]
      simp [shorts]

private theorem le_of_patch {code patched : Bytecode} {offset target : Nat}
    (h : Wordmill.patch code offset target = .ok patched) : target ≤ 0xFFFF := by
  apply le_of_addressFault
  cases hfault : addressFault target with
  | none => rfl
  | some e => simp [patch_of_fault hfault] at h

/-- What a table holds fits if the place of the table does, and nothing in it is larger. -/
theorem appendTables_eq {picks : List (Nat × List Nat)} {code : Bytecode}
    (h : ∀ pick ∈ picks, pick.1 + 2 < code.size ∧
      ∀ n ∈ pick.2.length :: pick.2, n ≤ code.size) :
    appendTables picks code = lift (Wordmill.appendTables picks code) := by
  induction picks generalizing code with
  | nil => rfl
  | cons pick picks ih =>
      obtain ⟨offset, starts⟩ := pick
      obtain ⟨hinside, hentries⟩ := h _ List.mem_cons_self
      rw [appendTables, Wordmill.appendTables, patch_eq hinside, lift_bind]
      cases hpatch : Wordmill.patch code offset code.size with
      | error e => rfl
      | ok patched =>
          have hsize := size_patch hpatch
          have hfit (n : Nat) (hn : n ∈ starts.length :: starts) : n ≤ 0xFFFF :=
            Nat.le_trans (hentries n hn) (le_of_patch hpatch)
          have hlength : ∀ n ∈ [starts.length], n ≤ 0xFFFF :=
            fun n hn => hfit n (List.mem_cons.mpr (.inl (List.mem_singleton.mp hn)))
          have hcount := foldlM_appendShort hlength .countFits patched.toList
          have hstarts := foldlM_appendShort
            (fun n hn => hfit n (List.mem_cons_of_mem _ hn)) .entryFits
            (patched.toList ++ shorts [starts.length])
          have hshorts := appendShorts_eq (starts.length :: starts) patched.toList
          rw [findSome?_addressFault hfit, unlessFault_none] at hshorts
          simp only [List.foldlM_cons, List.foldlM_nil, bind_pure, Array.toArray_toList]
            at hcount hshorts
          simp only [hcount, ok_bind, hstarts, hshorts]
          have hgrown : patched.toList ++ shorts [starts.length] ++ shorts starts =
              patched.toList ++ shorts (starts.length :: starts) := by
            simp [shorts]
          rw [hgrown]
          apply ih
          intro other hother
          obtain ⟨hsite, hothers⟩ := h other (List.mem_cons_of_mem _ hother)
          have hgrows : code.size ≤
              (patched.toList ++ shorts (starts.length :: starts)).toArray.size := by
            simp [hsize]
          exact ⟨Nat.lt_of_lt_of_le hsite hgrows,
            fun n hn => Nat.le_trans (hothers n hn) hgrows⟩

private theorem size_patchCalls {starts : Dictionary Nat} {calls : List (Nat × Char)}
    {code patched : Bytecode} (h : Wordmill.patchCalls starts calls code = .ok patched) :
    patched.size = code.size := by
  induction calls generalizing code with
  | nil =>
      cases h
      rfl
  | cons call calls ih =>
      obtain ⟨offset, name⟩ := call
      simp only [Wordmill.patchCalls] at h
      split at h
      · contradiction
      · split at h
        · contradiction
        · rename_i hpatch
          rw [ih h, size_patch hpatch]

variable (definitions)

/-- The calls of a program have their starts, and lie in the code. -/
theorem calls_program {pattern : Pattern} {call : Nat × Char}
    (h : call ∈ calls 0 (program definitions pattern)) :
    (Dictionary.insertAll (subroutineStarts definitions (subroutines definitions pattern)
        (pattern.codeSize definitions + 1)) []).hasName call.2 = true ∧
      call.1 + 2 < span (program definitions pattern) := by
  constructor
  · rw [← Dictionary.isSome_find?, find?_starts definitions pattern,
      find?_startOf_of_reached definitions (reached_of_mem_calls definitions h)]
    rfl
  · have hsite := (le_of_mem_placed (mem_calls_iff.mp h)).2
    simp only [size] at hsite
    omega

/-- The picks of a program lie in the code, and so do all their alternatives. -/
theorem picks_program {pattern : Pattern} {pick : Nat × List Nat}
    (h : pick ∈ picks 0 (program definitions pattern)) :
    pick.1 + 2 < span (program definitions pattern) ∧
      ∀ n ∈ pick.2.length :: pick.2, n ≤ span (program definitions pattern) := by
  have hentries := entriesWithin_of_closed (closed_program definitions pattern)
  have hplaced := mem_picks_iff.mp h
  have hsite := (le_of_mem_placed hplaced).2
  rw [Nat.zero_add] at hentries
  simp only [size] at hsite
  exact ⟨by omega, hentries pick.2 (mem_of_mem_placed hplaced)⟩

/-- To check every assumption changes nothing. -/
theorem compile_eq (pattern : Pattern) :
    compile definitions pattern = lift (Wordmill.compile pattern definitions) := by
  have hempty : Assembly.empty.here = 0 := rfl
  have hfound : reached definitions definitions (pattern.mentions definitions) =
      subroutines definitions pattern := rfl
  unfold compile Wordmill.compile
  rw [emit_eq, lift_bind, Pattern.emit_eq, hempty]
  cases pattern.fault definitions 0 with
  | some e => rfl
  | none =>
      simp only [unlessFault_none]
      rw [Assembly.op_halt_eq, Assembly.extend_extend,
        placeSubroutines_eq (covers_primary definitions pattern), lift_bind,
        Wordmill.placeSubroutines_eq, queue_primary, here_primary, hfound, place_subroutines]
      cases subroutineFault definitions (subroutines definitions pattern)
          (pattern.codeSize definitions + 1) with
      | some e => rfl
      | none =>
          have hsize : (drafts (program definitions pattern)).toArray.size =
              span (program definitions pattern) := by
            simp
          simp only [unlessFault_none]
          rw [patchCalls_eq, lift_bind]
          · split
            · rename_i e hcalls
              rw [hcalls]
              rfl
            · rename_i code hcalls
              rw [hcalls, appendTables_eq]
              intro pick hpick
              rw [size_patchCalls hcalls, hsize]
              exact picks_program definitions (by simpa using hpick)
          · intro call hcall
            rw [hsize]
            exact calls_program definitions (by simpa using hcall)

end Guarded

/-! ## The outcome of a compilation -/

variable (definitions : Dictionary Pattern)

theorem failure_cases {check : Check} {e : CompileError} (h : check.failure = some e) :
    e = .invalidPattern ∨ ∃ n, 0xFFFF < n ∧ e = .operand (.tooLarge n) := by
  have hplace {place : Nat} (h : addressFault place = some e) :
      ∃ n, 0xFFFF < n ∧ e = .operand (.tooLarge n) := by
    unfold addressFault at h
    split at h
    · contradiction
    · cases h
      exact ⟨place, by omega, rfl⟩
  cases check with
  | node pattern =>
      simp only [Check.failure] at h
      split at h
      · cases h
        exact .inl rfl
      · contradiction
  | choiceEnd | subroutine | table => exact .inr (hplace h)

private theorem tablePlaces_of_quoted (table : Nat) (chars : List Char) :
    tablePlaces table (chars.map .put ++ [.halt]) = [] := by
  induction chars with
  | nil => rfl
  | cons c chars ih => exact ih

theorem subroutines_quoted (chars : List Char) : subroutines definitions (.quoted chars) = [] :=
  reached_nil definitions definitions

/-- Quoted text is checked for nothing but to be there. -/
theorem checks_quoted (chars : List Char) :
    checks definitions (.quoted chars) = [.node (.quoted chars)] := by
  have hprogram : program definitions (.quoted chars) = chars.map .put ++ [.halt] := by
    simp only [program, subroutines_quoted, subroutineCode, Pattern.instructions]
  simp only [checks, hprogram, subroutines_quoted, subroutineChecks, tablePlaces_of_quoted,
    calls_append, Pattern.calls_quoted]
  rfl

private theorem exists_long_code (bound : Nat) :
    ∃ chars code, compile (.quoted chars) definitions = .ok code ∧ bound < code.size := by
  have hfault : compileFault definitions (.quoted (List.replicate (bound + 1) 'a')) = none := by
    rw [compileFault_eq_findSome?, checks_quoted]
    rfl
  refine ⟨_, _, (compile_eq_ok_iff definitions).mpr ⟨hfault, rfl⟩, ?_⟩
  have hlength := length_le_span (program definitions (.quoted (List.replicate (bound + 1) 'a')))
  simp only [program, Pattern.instructions, List.length_append, List.length_map,
    List.length_replicate] at hlength
  simp only [assemble, List.size_toArray, List.length_append, length_link, program,
    Pattern.instructions]
  omega

/--
The first check that fails decides the outcome: nodes of the root and of the
definitions that it reaches, with the ends of their choices, then the
subroutines that are called, then the tables.  Nothing else can go wrong,
however long the code becomes.
-/
theorem compile_decided_by_checks (pattern : Pattern) :
    compile pattern definitions =
        unlessFault ((checks definitions pattern).findSome? Check.failure)
          (assemble definitions pattern).toArray ∧
      Guarded.compile definitions pattern = Guarded.lift (compile pattern definitions) ∧
      (checks definitions pattern).filterMap Check.node? =
        pattern.nodes ++ (subroutines definitions pattern).flatMap (·.2.nodes) ∧
      (∀ entry ∈ subroutines definitions pattern,
        Reached definitions pattern entry.1 ∧ definitions.find? entry.1 = some entry.2) ∧
      (∀ e, compile pattern definitions = .error e →
        e = .invalidPattern ∨ ∃ n, 0xFFFF < n ∧ e = .operand (.tooLarge n)) ∧
      ∀ bound, ∃ chars code,
        compile (.quoted chars) definitions = .ok code ∧ bound < code.size := by
  have hdecided : compile pattern definitions =
      unlessFault ((checks definitions pattern).findSome? Check.failure)
        (assemble definitions pattern).toArray := by
    rw [compile_eq, compileFault_eq_findSome?]
  refine ⟨hdecided, Guarded.compile_eq definitions pattern,
    filterMap_node?_checks definitions pattern, ?_, ?_, exists_long_code definitions⟩
  · intro entry hentry
    exact ⟨(mem_subroutines_iff definitions pattern entry.1).mp (List.mem_map_of_mem hentry),
      find?_of_mem_reached definitions hentry⟩
  · intro e herror
    rw [hdecided] at herror
    cases hfirst : (checks definitions pattern).findSome? Check.failure with
    | none =>
        rw [hfirst] at herror
        contradiction
    | some failure =>
        rw [hfirst] at herror
        cases herror
        obtain ⟨check, -, hfailure⟩ := List.exists_of_findSome?_eq_some hfirst
        exact failure_cases hfailure

/-- One definition with nothing in one of its parts, and one with nothing at all. -/
def damagedDefinitions : Dictionary Pattern :=
  [('A', .sequence [.text ['b'], .sequence []]), ('Z', .choice [])]

private theorem subroutines_damaged :
    subroutines damagedDefinitions (.text ['A']) =
      [('A', .sequence [.text ['b'], .sequence []])] := by
  rw [subroutines, show Pattern.mentions damagedDefinitions (.text ['A']) = ['A'] from rfl,
    reached_of_some damagedDefinitions [] rfl]
  congr 1
  exact reached_nil _ _

theorem compile_damaged :
    compile (.text ['A']) damagedDefinitions = .error .invalidPattern ∧
      ∃ code, compile (.text ['b']) damagedDefinitions = .ok code := by
  obtain ⟨hreached, -⟩ := compile_decided_by_checks damagedDefinitions (.text ['A'])
  obtain ⟨hunreached, -⟩ := compile_decided_by_checks damagedDefinitions (.text ['b'])
  have hnone : subroutines damagedDefinitions (.text ['b']) = [] := reached_nil _ _
  rw [hreached, hunreached]
  simp only [checks, program, subroutines_damaged, hnone]
  exact ⟨rfl, _, rfl⟩

end Wordmill
