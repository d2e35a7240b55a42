import Wordmill.Proofs.Bytecode.Linking

/-!
# Names do not show in the code

The code of a pattern depends on the definitions that are reached from it, and
on their names only as far as different names stay different.  Both follow from
one simulation: wherever the two dictionaries are asked for corresponding names
they answer alike, so the two assemblies differ in the names of their calls
only.
-/

namespace Wordmill

namespace Pattern

mutual

/-- Another character for each one in unquoted text. -/
def rename (newName : Char → Char) : Pattern → Pattern
  | .sequence parts => .sequence (renameEach newName parts)
  | .text chars => .text (chars.map newName)
  | .quoted chars => .quoted chars
  | .choice alternatives => .choice (renameEach newName alternatives)
  | .optional body => .optional (rename newName body)

def renameEach (newName : Char → Char) : List Pattern → List Pattern
  | [] => []
  | pattern :: patterns => rename newName pattern :: renameEach newName patterns

end

variable (newName : Char → Char)

@[simp] theorem length_renameEach (patterns : List Pattern) :
    (renameEach newName patterns).length = patterns.length := by
  induction patterns with
  | nil => rfl
  | cons pattern patterns ih => simp [renameEach, ih]

@[simp] theorem isEmpty_rename (pattern : Pattern) :
    (pattern.rename newName).isEmpty = pattern.isEmpty := by
  cases pattern with
  | sequence parts => cases parts <;> rfl
  | text chars => cases chars <;> rfl
  | quoted chars => rfl
  | choice alternatives => simp [rename, isEmpty]
  | optional body => rfl

mutual

theorem rename_id (pattern : Pattern) : pattern.rename id = pattern := by
  cases pattern with
  | sequence parts => rw [rename, renameEach_id]
  | text chars => rw [rename, List.map_id]
  | quoted chars => rfl
  | choice alternatives => rw [rename, renameEach_id]
  | optional body => rw [rename, rename_id body]

theorem renameEach_id (patterns : List Pattern) : renameEach id patterns = patterns := by
  match patterns with
  | [] => rfl
  | pattern :: patterns => rw [renameEach, rename_id pattern, renameEach_id patterns]

end

end Pattern

/-! ## Emitting -/

namespace Assembly

/-- Other names in the calls, and other starts. -/
def recast (newName : Char → Char) (starts : Dictionary Nat) (a : Assembly) : Assembly :=
  ⟨a.code, a.calls.map fun call => (call.1, newName call.2), a.picks, starts⟩

variable {newName : Char → Char} {starts : Dictionary Nat}

private theorem call_recast (a : Assembly) (name : Char) :
    (a.recast newName starts).call (newName name) = (a.call name).recast newName starts := by
  simp [recast, call]

private theorem op_recast (a : Assembly) (opcode : Opcode) :
    (a.recast newName starts).op opcode = (a.op opcode).recast newName starts := rfl

private theorem foldl_put_recast (chars : List Char) (a : Assembly) :
    chars.foldl put (a.recast newName starts) = (chars.foldl put a).recast newName starts := by
  induction chars generalizing a with
  | nil => rfl
  | cons c chars ih => exact ih (a.put c)

end Assembly

/-- Corresponding characters name definitions in both dictionaries or stand for themselves. -/
def Pattern.Corresponds (newName : Char → Char) (definitions others : Dictionary Pattern)
    (c : Char) : Prop :=
  others.hasName (newName c) = definitions.hasName c ∧
    (definitions.hasName c = false → newName c = c)

section Emitting

variable {newName : Char → Char} {definitions others : Dictionary Pattern}
  {starts : Dictionary Nat}

open Pattern

private theorem Assembly.char_recast {c : Char} (h : Corresponds newName definitions others c)
    (a : Assembly) :
    char others (a.recast newName starts) (newName c) =
      (char definitions a c).recast newName starts := by
  obtain ⟨hname, hfixed⟩ := h
  cases hdefined : definitions.hasName c with
  | true =>
      rw [hdefined] at hname
      simp only [char, hname, hdefined, if_true]
      exact call_recast a c
  | false =>
      rw [hfixed hdefined, hdefined] at hname
      simp only [char, hfixed hdefined, hname, hdefined, Bool.false_eq_true, if_false]
      rfl

private theorem Assembly.foldl_char_recast {chars : List Char}
    (h : ∀ c ∈ chars, Corresponds newName definitions others c) (a : Assembly) :
    (chars.map newName).foldl (char others) (a.recast newName starts) =
      (chars.foldl (char definitions) a).recast newName starts := by
  induction chars generalizing a with
  | nil => rfl
  | cons c chars ih =>
      obtain ⟨hc, hchars⟩ := List.forall_mem_cons.mp h
      rw [List.map_cons, List.foldl_cons, List.foldl_cons, char_recast hc]
      exact ih hchars _

private theorem closeChoice_recast (index offset : Nat)
    (emitted : Except CompileError (Assembly × List Nat × List Nat)) :
    closeChoice index offset (emitted.map fun (a, sites) => (a.recast newName starts, sites)) =
      (closeChoice index offset emitted).map (·.recast newName starts) := by
  cases emitted with
  | error e => rfl
  | ok emitted =>
      obtain ⟨a, alternatives, jumps⟩ := emitted
      simp only [Except.map, closeChoice, Assembly.recast]
      cases patchAll a.code.size jumps a.code <;> rfl

namespace Pattern

mutual

/-- Renaming commutes with emission, whatever starts are noted by then. -/
theorem emit_rename (pattern : Pattern) (a : Assembly)
    (h : ∀ c ∈ pattern.unquoted, Corresponds newName definitions others c) :
    (pattern.rename newName).emit others (a.recast newName starts) =
      (pattern.emit definitions a).map (·.recast newName starts) := by
  unfold emit
  rw [isEmpty_rename]
  by_cases hempty : pattern.isEmpty
  · simp only [hempty, if_true]
    rfl
  · simp only [hempty, Bool.false_eq_true, if_false]
    cases pattern with
    | sequence parts => exact emitEach_rename parts a h
    | text chars => exact congrArg Except.ok (Assembly.foldl_char_recast h a)
    | quoted chars => exact congrArg Except.ok (Assembly.foldl_put_recast chars a)
    | choice alternatives =>
        rw [← closeChoice_recast]
        exact congrArg (closeChoice a.picks.size a.here)
          (emitAlternatives_rename alternatives a.pick [a.here + 3] [] h)
    | optional body =>
        have hbody := emit_rename body a.pick h
        have hpick : (a.recast newName starts).pick = a.pick.recast newName starts := rfl
        simp only [rename, hpick, hbody]
        cases body.emit definitions a.pick <;> rfl

theorem emitEach_rename (parts : List Pattern) (a : Assembly)
    (h : ∀ c ∈ unquotedEach parts, Corresponds newName definitions others c) :
    emitEach others (renameEach newName parts) (a.recast newName starts) =
      (emitEach definitions parts a).map (·.recast newName starts) := by
  match parts with
  | [] => rfl
  | part :: parts =>
      obtain ⟨hpart, hparts⟩ := List.forall_mem_append.mp h
      simp only [renameEach, emitEach]
      rw [emit_rename part a hpart]
      cases part.emit definitions a with
      | error e => rfl
      | ok b => exact emitEach_rename parts b hparts

theorem emitAlternatives_rename (alternatives : List Pattern) (a : Assembly)
    (begun jumps : List Nat)
    (h : ∀ c ∈ unquotedEach alternatives, Corresponds newName definitions others c) :
    emitAlternatives others (renameEach newName alternatives) (a.recast newName starts)
        begun jumps =
      (emitAlternatives definitions alternatives a begun jumps).map
        fun (b, sites) => (b.recast newName starts, sites) := by
  match alternatives with
  | [] => rfl
  | [last] =>
      obtain ⟨hlast, -⟩ := List.forall_mem_append.mp h
      simp only [renameEach, emitAlternatives]
      rw [emit_rename last a hlast]
      cases last.emit definitions a <;> rfl
  | alternative :: next :: following =>
      obtain ⟨halternative, hfollowing⟩ := List.forall_mem_append.mp h
      rw [renameEach, emitAlternatives, emitAlternatives, emit_rename alternative a halternative]
      cases alternative.emit definitions a with
      | error e => rfl
      | ok b => exact emitAlternatives_rename (next :: following) b.jump _ _ hfollowing

end

end Pattern

end Emitting

/-! ## Linking -/

section Linking

variable {definitions : Dictionary Pattern} {unplaced : Dictionary Pattern} {index : Nat}
  {a : Assembly}

/-- Emission only adds calls, to names that it finds in unquoted text. -/
theorem Pattern.emit_adds {pattern : Pattern} {b : Assembly}
    (h : pattern.emit definitions a = .ok b) :
    b.starts = a.starts ∧ ∀ call ∈ b.calls, call ∈ a.calls ∨ call.2 ∈ pattern.unquoted := by
  rw [emit_eq] at h
  cases hfault : pattern.fault definitions a.here with
  | some e => simp [hfault] at h
  | none =>
      simp only [hfault, unlessFault_none, Except.ok.injEq] at h
      subst h
      refine ⟨rfl, ?_⟩
      intro call hcall
      simp only [Assembly.extend, Array.mem_append, List.mem_toArray] at hcall
      refine hcall.imp_right fun hcall => ?_
      have hname := List.mem_map_of_mem (f := (·.2)) hcall
      rw [calls_instructions] at hname
      exact (List.mem_filter.mp hname).1

private theorem placeSubroutines_of_end (hcall : a.calls[index]? = none) :
    placeSubroutines definitions unplaced index a = .ok a := by
  rw [placeSubroutines]
  split <;> simp_all

private theorem placeSubroutines_of_none {offset : Nat} {name : Char}
    (hcall : a.calls[index]? = some (offset, name)) (hbody : unplaced.find? name = none) :
    placeSubroutines definitions unplaced index a =
      placeSubroutines definitions unplaced (index + 1) a := by
  rw [placeSubroutines]
  split
  · simp_all
  · rename_i hfound
    rw [hcall] at hfound
    cases hfound
    split <;> simp_all

private theorem placeSubroutines_of_some {offset : Nat} {name : Char} {body : Pattern}
    (hcall : a.calls[index]? = some (offset, name)) (hbody : unplaced.find? name = some body) :
    placeSubroutines definitions unplaced index a =
      match body.emit definitions (a.mark name) with
      | .error e => .error e
      | .ok b => placeSubroutines definitions (unplaced.erase name) (index + 1) (b.op .ret) := by
  rw [placeSubroutines]
  split
  · simp_all
  · rename_i hfound
    rw [hcall] at hfound
    cases hfound
    split
    · simp_all
    · rename_i hother
      rw [hbody] at hother
      cases hother
      rfl

/--
Under the characters that occur in unquoted text, the two dictionaries hold the
same up to names.  `occurs` includes what occurs in definitions that are found.
-/
structure Renames (newName : Char → Char) (occurs : Char → Prop)
    (definitions others : Dictionary Pattern) : Prop where
  injective {c d : Char} : occurs c → occurs d → newName c = newName d → c = d
  find?_eq {c : Char} : occurs c →
    others.find? (newName c) = (definitions.find? c).map (Pattern.rename newName)
  fixed {c : Char} : occurs c → definitions.hasName c = false → newName c = c
  closed {name : Char} {body : Pattern} : occurs name → definitions.find? name = some body →
    ∀ c ∈ body.unquoted, occurs c

variable {newName : Char → Char} {occurs : Char → Prop} {others : Dictionary Pattern}

theorem Renames.corresponds (h : Renames newName occurs definitions others) {c : Char}
    (hc : occurs c) : Pattern.Corresponds newName definitions others c := by
  refine ⟨?_, h.fixed hc⟩
  rw [← Dictionary.isSome_find?, h.find?_eq hc, Option.isSome_map, Dictionary.isSome_find?]

/-- The calls are to characters that occur, and their subroutines start at the same places. -/
structure Recasts (newName : Char → Char) (occurs : Char → Prop) (starts : Dictionary Nat)
    (a : Assembly) : Prop where
  calls : ∀ call ∈ a.calls, occurs call.2
  starts_eq {c : Char} : occurs c → starts.find? (newName c) = a.starts.find? c

/-- Both assemblies end in the same error, or they differ in names only. -/
inductive SameOutcome (newName : Char → Char) (occurs : Char → Prop) :
    Except CompileError Assembly → Except CompileError Assembly → Prop
  | error (e : CompileError) : SameOutcome newName occurs (.error e) (.error e)
  | ok {a : Assembly} {starts : Dictionary Nat} : Recasts newName occurs starts a →
      SameOutcome newName occurs (.ok (a.recast newName starts)) (.ok a)

/-- A subroutine that is written is noted under corresponding names. -/
theorem Recasts.place {starts : Dictionary Nat} {name : Char} {body : Pattern} {b : Assembly}
    (h : Renames newName occurs definitions others) (hrecasts : Recasts newName occurs starts a)
    (hname : occurs name) (hbody : definitions.find? name = some body)
    (hemit : body.emit definitions (a.mark name) = .ok b) :
    Recasts newName occurs (starts.insert (newName name) a.here) (b.op .ret) := by
  obtain ⟨hstarts, hcalls⟩ := Pattern.emit_adds hemit
  constructor
  · intro call hcall
    rcases hcalls call hcall with hcall | hcall
    · exact hrecasts.calls call hcall
    · exact h.closed hname hbody _ hcall
  · intro c hc
    have hmark : (b.op .ret).starts = a.starts.insert name a.here := hstarts
    rw [hmark, Dictionary.find?_insert, Dictionary.find?_insert, hrecasts.starts_eq hc]
    by_cases heq : c = name
    · rw [if_pos heq, if_pos (congrArg newName heq)]
    · rw [if_neg heq, if_neg fun hsame => heq (h.injective hc hname hsame)]

theorem Assembly.getElem?_calls_recast {offset : Nat} {name : Char}
    (hcall : a.calls[index]? = some (offset, name)) (starts : Dictionary Nat) :
    (a.recast newName starts).calls[index]? = some (offset, newName name) := by
  simp [recast, hcall]

/-- Where a definition is found for the first time, its other body is emitted in its place. -/
theorem placeSubroutines_recast {waiting : Dictionary Pattern} {starts : Dictionary Nat}
    {offset : Nat} {name : Char} {body : Pattern}
    (h : Renames newName occurs definitions others) (hname : occurs name)
    (hcall : a.calls[index]? = some (offset, name)) (hbody : definitions.find? name = some body)
    (hwaiting : waiting.find? (newName name) = some (body.rename newName)) :
    placeSubroutines others waiting index (a.recast newName starts) =
      match (body.emit definitions (a.mark name)).map
          (·.recast newName (starts.insert (newName name) a.here)) with
      | .error e => .error e
      | .ok b =>
          placeSubroutines others (waiting.erase (newName name)) (index + 1) (b.op .ret) := by
  rw [placeSubroutines_of_some (Assembly.getElem?_calls_recast hcall starts) hwaiting,
    ← body.emit_rename (a.mark name) fun c hc => h.corresponds (h.closed hname hbody c hc)]
  rfl

/-- The two searches go through corresponding calls, so the subroutines have the same order. -/
theorem placeSubroutines_rename (h : Renames newName occurs definitions others)
    (unplaced : Dictionary Pattern) (index : Nat) (a : Assembly)
    {waiting : Dictionary Pattern} {starts : Dictionary Nat}
    (hwaiting : ∀ c, occurs c →
      waiting.find? (newName c) = (unplaced.find? c).map (Pattern.rename newName))
    (hunplaced : ∀ name body, unplaced.find? name = some body →
      definitions.find? name = some body)
    (hrecasts : Recasts newName occurs starts a) :
    SameOutcome newName occurs
      (placeSubroutines others waiting index (a.recast newName starts))
      (placeSubroutines definitions unplaced index a) := by
  fun_induction placeSubroutines definitions unplaced index a generalizing waiting starts with
  | case1 unplaced index a hcall =>
      rw [placeSubroutines_of_end (by simp [Assembly.recast, hcall])]
      exact .ok hrecasts
  | case2 unplaced index a offset name hcall hbody ih =>
      have hname : occurs name := hrecasts.calls _ (Array.mem_of_getElem? hcall)
      rw [placeSubroutines_of_none (Assembly.getElem?_calls_recast hcall starts)
        (by rw [hwaiting name hname, hbody]; rfl)]
      exact ih hwaiting hunplaced hrecasts
  | case3 unplaced index a offset name hcall body hbody e hemit =>
      have hname : occurs name := hrecasts.calls _ (Array.mem_of_getElem? hcall)
      rw [placeSubroutines_recast h hname hcall (hunplaced name body hbody)
        (by rw [hwaiting name hname, hbody]; rfl), hemit]
      exact .error e
  | case4 unplaced index a offset name hcall body hbody b hemit ih =>
      have hname : occurs name := hrecasts.calls _ (Array.mem_of_getElem? hcall)
      have hfound := hunplaced name body hbody
      rw [placeSubroutines_recast h hname hcall hfound
        (by rw [hwaiting name hname, hbody]; rfl), hemit]
      apply ih
      · intro c hc
        rw [Dictionary.find?_erase, Dictionary.find?_erase, hwaiting c hc]
        by_cases heq : c = name
        · rw [if_pos heq, if_pos (congrArg newName heq)]
          rfl
        · rw [if_neg heq, if_neg fun hsame => heq (h.injective hc hname hsame)]
      · intro other found herased
        rw [Dictionary.find?_erase] at herased
        split at herased
        · contradiction
        · exact hunplaced other found herased
      · exact hrecasts.place h hname hfound hemit

private theorem patchCalls_rename {starts begun : Dictionary Nat} {calls : List (Nat × Char)}
    (h : ∀ call ∈ calls, starts.find? (newName call.2) = begun.find? call.2) (code : Bytecode) :
    patchCalls starts (calls.map fun call => (call.1, newName call.2)) code =
      patchCalls begun calls code := by
  induction calls generalizing code with
  | nil => rfl
  | cons call calls ih =>
      obtain ⟨offset, name⟩ := call
      obtain ⟨hname, hcalls⟩ := List.forall_mem_cons.mp h
      simp only [List.map_cons, patchCalls, hname]
      cases begun.find? name with
      | none => rfl
      | some start =>
          simp only
          cases patch code offset start with
          | error e => rfl
          | ok code => exact ih hcalls code

theorem compile_rename (h : Renames newName occurs definitions others) {pattern : Pattern}
    (hpattern : ∀ c ∈ pattern.unquoted, occurs c) :
    compile (pattern.rename newName) others = compile pattern definitions := by
  have hempty : Assembly.empty.recast newName [] = .empty := by
    simp [Assembly.recast, Assembly.empty]
  have hroot : (pattern.rename newName).emit others (Assembly.empty.recast newName []) =
      (pattern.emit definitions .empty).map (·.recast newName []) :=
    pattern.emit_rename .empty fun c hc => h.corresponds (hpattern c hc)
  rw [hempty] at hroot
  unfold compile
  rw [hroot]
  cases hemit : pattern.emit definitions .empty with
  | error e => rfl
  | ok a =>
      obtain ⟨hstarts, hcalls⟩ := Pattern.emit_adds hemit
      have hrecasts : Recasts newName occurs [] (a.op .halt) := by
        constructor
        · intro call hcall
          rcases hcalls call hcall with hcall | hcall
          · simp [Assembly.empty] at hcall
          · exact hpattern _ hcall
        · intro c _
          have hnone : (a.op .halt).starts = [] := hstarts
          rw [hnone]
          rfl
      have hplace := placeSubroutines_rename h definitions 0 (a.op .halt) (fun _ => h.find?_eq)
        (fun _ _ hbody => hbody) hrecasts
      simp only [Except.map, Assembly.op_recast]
      generalize placeSubroutines others others 0 ((a.op .halt).recast newName []) = second
        at hplace ⊢
      generalize placeSubroutines definitions definitions 0 (a.op .halt) = first at hplace ⊢
      cases hplace with
      | error e => rfl
      | @ok b starts hrecasts =>
          have hpatch := patchCalls_rename (fun call hcall => hrecasts.starts_eq
            (hrecasts.calls call (Array.mem_toList_iff.mp hcall))) b.code
          simp only [Assembly.recast, Array.toList_map]
          rw [hpatch]

end Linking

end Wordmill
