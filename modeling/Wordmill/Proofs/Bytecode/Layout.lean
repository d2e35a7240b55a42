import Wordmill.Proofs.Bytecode.Instruction

/-!
# The layout of a program

What an assembler writes that knows every address beforehand: the primary code,
one subroutine for each definition in the order in which a breadth-first search
meets them, and one pick table for each pick.
-/

namespace Wordmill

namespace Pattern

mutual

/-- The characters of unquoted text, in order. -/
def unquoted : Pattern → List Char
  | .sequence parts => unquotedEach parts
  | .text chars => chars
  | .quoted _ => []
  | .choice alternatives => unquotedEach alternatives
  | .optional body => unquoted body

def unquotedEach : List Pattern → List Char
  | [] => []
  | pattern :: patterns => unquoted pattern ++ unquotedEach patterns

end

/-- The definitions that a pattern mentions, in order and as often as it mentions them. -/
def mentions (definitions : Dictionary Pattern) (pattern : Pattern) : List Char :=
  pattern.unquoted.filter definitions.hasName

end Pattern

namespace Layout

open Instruction

variable (definitions : Dictionary Pattern)

/--
Breadth-first search: the names of `queue` that are still unplaced, each with
its definition, and behind them what these definitions mention.
-/
def reached (unplaced : Dictionary Pattern) (queue : List Char) : List (Char × Pattern) :=
  match queue with
  | [] => []
  | name :: queue =>
      match _hbody : unplaced.find? name with
      | none => reached unplaced queue
      | some body =>
          (name, body) :: reached (unplaced.erase name) (queue ++ body.mentions definitions)
termination_by (unplaced.length, queue.length)
decreasing_by
  · exact Prod.Lex.right _ (by simp)
  · exact Prod.Lex.left _ _ (Dictionary.length_erase_lt _hbody)

@[simp] theorem reached_nil (unplaced : Dictionary Pattern) :
    reached definitions unplaced [] = [] := by
  rw [reached]

theorem reached_of_none {unplaced : Dictionary Pattern} {name : Char} (queue : List Char)
    (h : unplaced.find? name = none) :
    reached definitions unplaced (name :: queue) = reached definitions unplaced queue := by
  rw [reached]
  split
  · rfl
  · simp_all

theorem reached_of_some {unplaced : Dictionary Pattern} {name : Char} {body : Pattern}
    (queue : List Char) (h : unplaced.find? name = some body) :
    reached definitions unplaced (name :: queue) =
      (name, body) ::
        reached definitions (unplaced.erase name) (queue ++ body.mentions definitions) := by
  rw [reached]
  split
  · simp_all
  · simp_all

/-- The definitions that get a subroutine, in the order of their subroutines. -/
def subroutines (pattern : Pattern) : List (Char × Pattern) :=
  reached definitions definitions (pattern.mentions definitions)

theorem subroutines_nil (pattern : Pattern) : subroutines [] pattern = [] := by
  have hmentions : pattern.mentions [] = [] :=
    List.filter_eq_nil_iff.mpr (by simp [Dictionary.hasName])
  rw [subroutines, hmentions, reached_nil]

/-- One body and one return for each definition, the first one at `offset`. -/
def subroutineCode : List (Char × Pattern) → Nat → List Instruction
  | [], _ => []
  | (_, body) :: others, offset =>
      body.instructions definitions offset ++ .ret ::
        subroutineCode others (offset + body.codeSize definitions + 1)

def subroutineStarts : List (Char × Pattern) → Nat → Dictionary Nat
  | [], _ => []
  | (name, body) :: others, offset =>
      (name, offset) :: subroutineStarts others (offset + body.codeSize definitions + 1)

/-- All instructions of a pattern with the definitions that it reaches. -/
def program (pattern : Pattern) : List Instruction :=
  pattern.instructions definitions 0 ++ .halt ::
    subroutineCode definitions (subroutines definitions pattern) (pattern.codeSize definitions + 1)

def startOf (pattern : Pattern) (name : Char) : Nat :=
  ((subroutineStarts definitions (subroutines definitions pattern)
    (pattern.codeSize definitions + 1)).find? name).getD 0

/-- Instructions with their final operands; the next pick gets the table at `table`. -/
def link (startOf : Char → Nat) : Nat → List Instruction → List UInt8
  | _, [] => []
  | table, instruction :: instructions =>
      instruction.bytes startOf table ++ link startOf (table + instruction.tableSize) instructions

def shorts (numbers : List Nat) : List UInt8 :=
  numbers.flatMap fun n => [(Operand.shortBytes n).1, (Operand.shortBytes n).2]

def table : Instruction → List UInt8
  | .pick starts => shorts (starts.length :: starts)
  | _ => []

/-- The tables follow the instructions, in the order of their picks. -/
def assemble (pattern : Pattern) : List UInt8 :=
  let code := program definitions pattern
  link (startOf definitions pattern) (span code) code ++ code.flatMap table

/-! ## What is reached -/

/-- The names mentioned by a pattern or by a definition that is reached from it. -/
inductive Reached (pattern : Pattern) : Char → Prop
  | mentioned {name : Char} : name ∈ pattern.mentions definitions → Reached pattern name
  | through {name other : Char} {body : Pattern} : Reached pattern name →
      definitions.find? name = some body → other ∈ body.mentions definitions →
      Reached pattern other

theorem find?_of_mem_reached {unplaced : Dictionary Pattern} {queue : List Char} {name : Char}
    {body : Pattern} (h : (name, body) ∈ reached definitions unplaced queue) :
    unplaced.find? name = some body := by
  fun_induction reached definitions unplaced queue with
  | case1 => contradiction
  | case2 unplaced first queue hbody ih => exact ih h
  | case3 unplaced first queue found hbody ih =>
      rcases List.mem_cons.mp h with h | h
      · cases h
        exact hbody
      · have herased := ih h
        rw [Dictionary.find?_erase] at herased
        split at herased
        · contradiction
        · exact herased

theorem nodup_reached (unplaced : Dictionary Pattern) (queue : List Char) :
    ((reached definitions unplaced queue).map (·.1)).Nodup := by
  fun_induction reached definitions unplaced queue with
  | case1 => exact List.nodup_nil
  | case2 unplaced first queue hbody ih => exact ih
  | case3 unplaced first queue found hbody ih =>
      refine List.nodup_cons.mpr ⟨?_, ih⟩
      intro hmem
      obtain ⟨⟨name, body⟩, hmem, rfl⟩ := List.mem_map.mp hmem
      have herased := find?_of_mem_reached definitions hmem
      simp [Dictionary.find?_erase] at herased

theorem length_reached_le (unplaced : Dictionary Pattern) (queue : List Char) :
    (reached definitions unplaced queue).length ≤ unplaced.length := by
  fun_induction reached definitions unplaced queue with
  | case1 => exact Nat.zero_le _
  | case2 unplaced first queue hbody ih => exact ih
  | case3 unplaced first queue found hbody ih =>
      have := Dictionary.length_erase_lt hbody
      simp only [List.length_cons]
      omega

/-- Names that wait, and names mentioned by what is found, are found unless placed before. -/
theorem mem_reached_of_waiting (unplaced : Dictionary Pattern) (queue : List Char) (other : Char)
    (hother : unplaced.hasName other = true)
    (hwaits : other ∈ queue ∨ ∃ entry ∈ reached definitions unplaced queue,
      other ∈ entry.2.mentions definitions) :
    other ∈ (reached definitions unplaced queue).map (·.1) := by
  fun_induction reached definitions unplaced queue with
  | case1 => simp at hwaits
  | case2 unplaced first queue hbody ih =>
      apply ih hother
      refine hwaits.imp_left fun hmem => ?_
      rcases List.mem_cons.mp hmem with rfl | hmem
      · rw [← Dictionary.isSome_find?, hbody] at hother
        contradiction
      · exact hmem
  | case3 unplaced first queue found hbody ih =>
      rw [List.map_cons, List.mem_cons]
      by_cases hfirst : other = first
      · exact .inl hfirst
      · refine .inr (ih ?_ ?_)
        · rw [← Dictionary.isSome_find?, Dictionary.find?_erase, if_neg hfirst,
            Dictionary.isSome_find?]
          exact hother
        · rcases hwaits with hmem | ⟨entry, hentry, hmem⟩
          · exact .inl (List.mem_append_left _ (List.mem_of_ne_of_mem hfirst hmem))
          · rcases List.mem_cons.mp hentry with rfl | hentry
            · exact .inl (List.mem_append_right _ hmem)
            · exact .inr ⟨entry, hentry, hmem⟩

theorem hasName_of_mem_mentions {pattern : Pattern} {name : Char}
    (h : name ∈ pattern.mentions definitions) : definitions.hasName name = true :=
  (List.mem_filter.mp h).2

private theorem reached_of_mem_reached (pattern : Pattern) (unplaced : Dictionary Pattern)
    (queue : List Char) (name : Char)
    (hunplaced : ∀ name body, unplaced.find? name = some body →
      definitions.find? name = some body)
    (hqueue : ∀ name ∈ queue, Reached definitions pattern name)
    (h : name ∈ (reached definitions unplaced queue).map (·.1)) :
    Reached definitions pattern name := by
  fun_induction reached definitions unplaced queue with
  | case1 => contradiction
  | case2 unplaced first queue hbody ih =>
      exact ih hunplaced (fun name hname => hqueue name (List.mem_cons_of_mem _ hname)) h
  | case3 unplaced first queue found hbody ih =>
      have hfirst : Reached definitions pattern first := hqueue first List.mem_cons_self
      rcases List.mem_cons.mp h with rfl | h
      · exact hfirst
      · refine ih ?_ ?_ h
        · intro name body herased
          rw [Dictionary.find?_erase] at herased
          split at herased
          · contradiction
          · exact hunplaced name body herased
        · intro name hname
          rcases List.mem_append.mp hname with hname | hname
          · exact hqueue name (List.mem_cons_of_mem _ hname)
          · exact .through hfirst (hunplaced first found hbody) hname

/-- The definitions with a subroutine are those that are reached. -/
theorem mem_subroutines_iff (pattern : Pattern) (name : Char) :
    name ∈ (subroutines definitions pattern).map (·.1) ↔ Reached definitions pattern name := by
  constructor
  · exact reached_of_mem_reached definitions pattern definitions _ name
      (fun _ _ h => h) (fun _ h => .mentioned h)
  · intro h
    induction h with
    | mentioned hmem =>
        exact mem_reached_of_waiting definitions definitions _ _
          (hasName_of_mem_mentions definitions hmem) (.inl hmem)
    | through _ hbody hmem ih =>
        obtain ⟨⟨name, found⟩, hentry, rfl⟩ := List.mem_map.mp ih
        have hfound := find?_of_mem_reached definitions hentry
        rw [hbody] at hfound
        cases hfound
        exact mem_reached_of_waiting definitions definitions _ _
          (hasName_of_mem_mentions definitions hmem) (.inr ⟨_, hentry, hmem⟩)

end Layout

end Wordmill
