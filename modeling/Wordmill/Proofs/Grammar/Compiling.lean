import Wordmill.Proofs.Bytecode.CodeSize
import Wordmill.Proofs.Grammar.Extent
import Wordmill.Proofs.Grammar.Outcome
import Wordmill.Proofs.Pattern.Weight

/-!
# Room for a compiler

Gathering the definitions of a grammar and compiling it, with the stack, the
patterns and the code measured.  What is loaded from a text needs room for a few
hundred bytes for each byte of the text.
-/

namespace Wordmill

namespace Checked

open Grammar (Holds Awaits StackFits)
open Text (bytes)

/-- The first definition found for a name is read, and no other one. -/
def readOnce (name : Char) (source : List Char) (found : Dictionary Pattern) :
    Except Panic (Except SyntaxError (Dictionary Pattern)) :=
  if found.hasName name then return .ok found
  else do
    match ← parse source with
    | .error e => return .error e
    | .ok pattern => return .ok (found.insert name pattern)

/-- A dictionary on the stack takes 8 bytes. -/
def gather (current : Dictionary Grammar) (pending : List (Dictionary Grammar))
    (found : Dictionary Pattern) : Except Panic (Except SyntaxError (Dictionary Pattern)) :=
  match current, pending with
  | [], [] => return .ok found
  | [], next :: pending => gather next pending found
  | (name, .mk source nested) :: current, pending => do
      match ← readOnce name source found with
      | .error e => return .error e
      | .ok found =>
          grow (8 * (pending.length + 1))
          gather current (nested :: pending) found
termination_by sizeOf current + sizeOf pending

/--
The code is measured by what it comes to with its tables: no more of it has been
written before that, also if it comes to an error.  A list of the alternatives or
the jumps of a choice takes 8 bytes for each, and code or a table at least one.
-/
def compile (grammar : Grammar) : Except Panic (Except WordError Bytecode) := do
  match ← parse grammar.source with
  | .error e => return .error (.pattern e)
  | .ok root =>
      match ← gather grammar.definitions [] [] with
      | .error e => return .error (.pattern e)
      | .ok definitions =>
          grow (8 * (Layout.assemble definitions root).length)
          match Guarded.compile definitions root with
          | .error (.failure e) => return .error (.compile e)
          | .error (.broken assumption) => .error (.assumption assumption)
          | .ok code => return .ok code

/-! ## The stack -/

/-- There is room for what is on the stack, with all that may still come on top of each. -/
def Stacked (limit : Nat) : List (Dictionary Grammar) → Prop
  | [] => True
  | next :: pending =>
      (∃ needed, StackFits needed next ∧ needed + pending.length ≤ limit) ∧ Stacked limit pending

variable {limit peak : Nat} {current nested : Dictionary Grammar}
  {pending : List (Dictionary Grammar)} {found : Dictionary Pattern}

private theorem stacked_push {name : Char} {source : List Char}
    (h : Stacked limit (((name, .mk source nested) :: current) :: pending)) :
    Stacked limit (current :: nested :: pending) ∧ pending.length + 1 ≤ limit := by
  obtain ⟨⟨needed, ⟨hneeded, hentries⟩, hlimit⟩, hpending⟩ := h
  rename_i above
  obtain ⟨hfirst, hothers⟩ := List.forall_mem_cons.mp hentries
  rw [List.length_cons] at hneeded
  refine ⟨⟨⟨current.length + above, .mk (Nat.le_refl _) hothers, ?_⟩, ⟨above, hfirst, ?_⟩,
    hpending⟩, ?_⟩
  · rw [List.length_cons]
    omega
  · omega
  · omega

private theorem takes_readOnce (name : Char) {source : List Char}
    (hpeak : 32 * (source.length + 1) ≤ peak) :
    Takes peak (readOnce name source found)
      (.ok (if found.hasName name then .ok found
        else match Pattern.parse source with
          | .error e => .error e
          | .ok pattern => .ok (found.insert name pattern))) := by
  unfold readOnce
  split
  · exact .refl ..
  · refine .bind (takes_parse hpeak) ?_
    cases Pattern.parse source with
    | error e => exact .refl ..
    | ok pattern => exact .refl ..

private theorem takes_gather (hstack : Stacked limit (current :: pending))
    (hsources : ∀ name held, Awaits current pending name held →
      32 * (held.source.length + 1) ≤ peak)
    (hpeak : 8 * limit ≤ peak) :
    Takes peak (gather current pending found) (.ok (Grammar.gather current pending found)) := by
  fun_induction gather current pending found with
  | case1 found =>
      rw [Grammar.gather]
      exact .refl ..
  | case2 found next pending ih =>
      rw [Grammar.gather]
      apply ih hstack.2
      simpa only [Grammar.awaits_nil_iff] using hsources
  | case3 found name source nested current pending ih =>
      obtain ⟨hpushed, hlength⟩ := stacked_push hstack
      have hfirst := hsources name (.mk source nested) (Grammar.awaits_cons_iff.mpr (.inl rfl))
      have hnext (found : Dictionary Pattern) :
          Takes peak (do grow (8 * (pending.length + 1)); gather current (nested :: pending) found)
            (.ok (Grammar.gather current (nested :: pending) found)) :=
        .bind (.grow (by omega)) (ih found hpushed fun other held hheld =>
          hsources other held (Grammar.awaits_cons_iff.mpr (.inr hheld)))
      refine .bind (takes_readOnce name hfirst) ?_
      rw [Grammar.gather]
      by_cases hname : found.hasName name = true
      · simpa only [hname, if_true] using hnext found
      · simp only [hname, Bool.false_eq_true, if_false]
        cases Pattern.parse source with
        | error e => exact .refl ..
        | ok pattern => exact hnext (found.insert name pattern)

/-! ## The code -/

/-- The code of a grammar takes no more than 25 bytes for each byte of the text. -/
theorem length_assemble_le {grammar : Grammar} {root : Pattern}
    {definitions : Dictionary Pattern} (h : grammar.WrittenIn limit)
    (hroot : Pattern.parse grammar.source = .ok root)
    (hdefinitions : grammar.patterns = .ok definitions) :
    (Layout.assemble definitions root).length ≤ 25 * limit := by
  obtain ⟨-, room, hroom, hsum⟩ := h
  have hprimary := Pattern.footprint_of_parse definitions hroot 0
  have hbodies : ∀ entry ∈ Layout.subroutines definitions root, ∀ offset,
      Instruction.footprint (entry.2.instructions definitions offset) + 1 ≤ 25 * room entry.1 := by
    intro entry hentry offset
    obtain ⟨held, hheld, hparse⟩ := Grammar.exists_holds_of_mem_subroutines hdefinitions hentry
    have hbody := Pattern.footprint_of_parse definitions hparse offset
    have hbytes := hroom entry.1 held hheld
    omega
  have hsubroutines := Layout.footprint_subroutineCode definitions hbodies
    (root.codeSize definitions + 1)
  have hnames := hsum _ (Layout.nodup_reached definitions definitions (root.mentions definitions))
  simp only [Layout.length_assemble, Layout.program, Instruction.footprint_append,
    Instruction.footprint_cons, Instruction.size, Instruction.tableSize]
  simp only [Layout.subroutines] at hsubroutines ⊢
  omega

theorem takes_compile {grammar : Grammar} (h : grammar.WrittenIn limit)
    (hpeak : 256 * (limit + 1) ≤ peak) :
    Takes peak (compile grammar) (.ok grammar.compile) := by
  obtain ⟨room, hroom, hsum⟩ := h.sources
  have hstack : Stacked (2 * limit) [grammar.definitions] :=
    ⟨⟨2 * limit, h.stack, Nat.le_refl _⟩, trivial⟩
  have hsource := Text.length_le_bytes grammar.source
  have hroot := hsum [] List.nodup_nil
  have hsources (name : Char) (held : Grammar) (hheld : Awaits grammar.definitions [] name held) :
      32 * (held.source.length + 1) ≤ peak := by
    obtain ⟨_, hmem, hheld⟩ := hheld
    obtain rfl := List.mem_singleton.mp hmem
    have hbytes := hroom name held hheld
    have hname := hsum [name] (by simp)
    have hlength := Text.length_le_bytes held.source
    rw [List.map_singleton, List.sum_singleton] at hname
    omega
  unfold Grammar.compile
  refine .bind (takes_parse (by omega)) ?_
  cases hparse : Pattern.parse grammar.source with
  | error e => exact .refl ..
  | ok root =>
      refine .bind (takes_gather hstack hsources (by omega)) ?_
      have hpatterns : Grammar.gather grammar.definitions [] [] = grammar.patterns := rfl
      rw [hpatterns]
      cases hdefinitions : grammar.patterns with
      | error e => exact .refl ..
      | ok definitions =>
          have hcode := length_assemble_le h hparse hdefinitions
          refine .bind (.grow (by omega)) ?_
          simp only [Guarded.compile_eq]
          cases Wordmill.compile root definitions with
          | error e => exact .refl ..
          | ok code => exact .refl ..

/-- Code that has been measured is not too long for its offsets. -/
theorem size_of_compile {grammar : Grammar} {code : Bytecode}
    (h : compile grammar = .ok (.ok code)) : code.size ≤ maxBytes := by
  have hlimit : sureRoom ≤ maxBytes := by decide
  obtain ⟨_ | root, -, h⟩ := exists_of_bind_eq_ok h
  · exact absurd h nofun
  obtain ⟨_ | definitions, -, h⟩ := exists_of_bind_eq_ok h
  · exact absurd h nofun
  obtain ⟨_, hgrow, h⟩ := exists_of_bind_eq_ok h
  have hroom : 8 * (Layout.assemble definitions root).length ≤ sureRoom := by
    by_contra hlarge
    rw [grow, fit, if_neg hlarge] at hgrow
    exact absurd hgrow nofun
  rw [Guarded.compile_eq] at h
  cases hcode : Wordmill.compile root definitions with
  | error e =>
      rw [hcode] at h
      exact absurd h nofun
  | ok made =>
      rw [hcode] at h
      cases h
      obtain ⟨-, rfl⟩ := (compile_eq_ok_iff definitions).mp hcode
      rw [List.size_toArray]
      omega

end Checked

end Wordmill
