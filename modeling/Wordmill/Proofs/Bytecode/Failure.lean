import Wordmill.Proofs.Bytecode.Boundaries
import Wordmill.Proofs.Bytecode.Linked

/-!
# Where a compilation fails

A compilation goes through a row of checks, which sizes alone determine: the
nodes as they are entered and the choices as they are left, then the subroutines
that are called, then the tables.  The first check that fails decides the
outcome.  Counts and entries of tables need no check, since a table stands
behind all that it mentions.
-/

namespace Wordmill

open Instruction Layout

namespace Pattern

mutual

/-- A pattern and everything that it is made of, each node in front of its parts. -/
def nodes : Pattern → List Pattern
  | .sequence parts => .sequence parts :: nodesEach parts
  | .text chars => [.text chars]
  | .quoted chars => [.quoted chars]
  | .choice alternatives => .choice alternatives :: nodesEach alternatives
  | .optional body => .optional body :: nodes body

def nodesEach : List Pattern → List Pattern
  | [] => []
  | pattern :: patterns => nodes pattern ++ nodesEach patterns

end

end Pattern

inductive Check where
  | node (pattern : Pattern)
  | choiceEnd (stop : Nat)
  | subroutine (start : Nat)
  | table (place : Nat)

namespace Check

/-- Nodes must not be empty, and all places must fit into two bytes. -/
def failure : Check → Option CompileError
  | .node pattern => if pattern.isEmpty then some .invalidPattern else none
  | .choiceEnd place | .subroutine place | .table place => addressFault place

theorem findSome?_failure_cons (check : Check) (checks : List Check) :
    (check :: checks).findSome? failure = check.failure.or (checks.findSome? failure) := by
  rw [List.findSome?_cons]
  cases check.failure <;> rfl

theorem findSome?_failure_node (pattern : Pattern) (checks : List Check) :
    (.node pattern :: checks).findSome? failure =
      if pattern.isEmpty then some .invalidPattern else checks.findSome? failure := by
  rw [findSome?_failure_cons, failure]
  split <;> rfl

def node? : Check → Option Pattern
  | .node pattern => some pattern
  | .choiceEnd _ | .subroutine _ | .table _ => none

end Check

namespace Pattern

variable (definitions : Dictionary Pattern)

mutual

/-- The checks made while the instructions of a pattern are written from `offset` on. -/
def checks : Pattern → Nat → List Check
  | .sequence parts, offset => .node (.sequence parts) :: checksEach parts offset
  | .text chars, _ => [.node (.text chars)]
  | .quoted chars, _ => [.node (.quoted chars)]
  | .choice alternatives, offset =>
      .node (.choice alternatives) :: (checksBetween alternatives (offset + 3) ++
        [.choiceEnd (offset + codeSize definitions (.choice alternatives))])
  | .optional body, offset => .node (.optional body) :: checks body (offset + 3)

def checksEach : List Pattern → Nat → List Check
  | [], _ => []
  | part :: parts, offset =>
      checks part offset ++ checksEach parts (offset + codeSize definitions part)

/-- Alternatives have a jump between them. -/
def checksBetween : List Pattern → Nat → List Check
  | [], _ => []
  | alternative :: others, offset =>
      checks alternative offset ++
        checksBetween others (offset + codeSize definitions alternative + 3)

end

mutual

theorem fault_eq_findSome? (pattern : Pattern) (offset : Nat) :
    pattern.fault definitions offset =
      (pattern.checks definitions offset).findSome? Check.failure := by
  unfold fault
  cases pattern with
  | sequence parts =>
      rw [checks, Check.findSome?_failure_node, ← faultEach_eq_findSome? parts offset]
  | text chars => rw [checks, Check.findSome?_failure_node, List.findSome?_nil]
  | quoted chars => rw [checks, Check.findSome?_failure_node, List.findSome?_nil]
  | choice alternatives =>
      rw [checks, Check.findSome?_failure_node, List.findSome?_append,
        ← faultBetween_eq_findSome? alternatives (offset + 3), Check.findSome?_failure_cons,
        List.findSome?_nil, Option.or_none]
      rfl
  | optional body =>
      rw [checks, Check.findSome?_failure_node, ← fault_eq_findSome? body (offset + 3)]

theorem faultEach_eq_findSome? (parts : List Pattern) (offset : Nat) :
    faultEach definitions parts offset =
      (checksEach definitions parts offset).findSome? Check.failure := by
  match parts with
  | [] => rfl
  | part :: parts =>
      rw [faultEach, checksEach, List.findSome?_append, fault_eq_findSome? part,
        faultEach_eq_findSome? parts]

theorem faultBetween_eq_findSome? (alternatives : List Pattern) (offset : Nat) :
    faultBetween definitions alternatives offset =
      (checksBetween definitions alternatives offset).findSome? Check.failure := by
  match alternatives with
  | [] => rfl
  | alternative :: others =>
      rw [faultBetween, checksBetween, List.findSome?_append, fault_eq_findSome? alternative,
        faultBetween_eq_findSome? others]

end

mutual

/-- Each node is entered once, and the nodes are entered in order. -/
theorem filterMap_node?_checks (pattern : Pattern) (offset : Nat) :
    (pattern.checks definitions offset).filterMap Check.node? = pattern.nodes := by
  cases pattern with
  | sequence parts =>
      simp [checks, nodes, Check.node?, filterMap_node?_checksEach parts offset]
  | text chars | quoted chars => rfl
  | choice alternatives =>
      simp [checks, nodes, Check.node?, filterMap_node?_checksBetween alternatives (offset + 3)]
  | optional body => simp [checks, nodes, Check.node?, filterMap_node?_checks body (offset + 3)]

theorem filterMap_node?_checksEach (parts : List Pattern) (offset : Nat) :
    (checksEach definitions parts offset).filterMap Check.node? = nodesEach parts := by
  match parts with
  | [] => rfl
  | part :: parts =>
      rw [checksEach, nodesEach, List.filterMap_append, filterMap_node?_checks part,
        filterMap_node?_checksEach parts]

theorem filterMap_node?_checksBetween (alternatives : List Pattern) (offset : Nat) :
    (checksBetween definitions alternatives offset).filterMap Check.node? =
      nodesEach alternatives := by
  match alternatives with
  | [] => rfl
  | alternative :: others =>
      rw [checksBetween, nodesEach, List.filterMap_append, filterMap_node?_checks alternative,
        filterMap_node?_checksBetween others]

end

end Pattern

namespace Layout

variable (definitions : Dictionary Pattern)

def subroutineChecks : List (Char × Pattern) → Nat → List Check
  | [], _ => []
  | (_, body) :: others, offset =>
      body.checks definitions offset ++
        subroutineChecks others (offset + body.codeSize definitions + 1)

/-- Where the tables of the picks begin, of which the next one is put at `table`. -/
def tablePlaces : Nat → List Instruction → List Nat
  | _, [] => []
  | table, .pick starts :: instructions =>
      table :: tablePlaces (table + tableSize (.pick starts)) instructions
  | table, _ :: instructions => tablePlaces table instructions

/-- All checks of a compilation: the root and the definitions that it reaches,
then every call, then every table. -/
def checks (pattern : Pattern) : List Check :=
  let code := program definitions pattern
  pattern.checks definitions 0 ++
    (subroutineChecks definitions (subroutines definitions pattern)
        (pattern.codeSize definitions + 1) ++
      ((calls 0 code).map (fun call => .subroutine (startOf definitions pattern call.2)) ++
        (tablePlaces (span code) code).map .table))

private theorem subroutineFault_eq_findSome? (found : List (Char × Pattern)) (offset : Nat) :
    subroutineFault definitions found offset =
      (subroutineChecks definitions found offset).findSome? Check.failure := by
  induction found generalizing offset with
  | nil => rfl
  | cons entry found ih =>
      rw [subroutineFault, subroutineChecks, List.findSome?_append,
        Pattern.fault_eq_findSome?, ih]

private theorem filterMap_node?_subroutineChecks (found : List (Char × Pattern)) (offset : Nat) :
    (subroutineChecks definitions found offset).filterMap Check.node? =
      found.flatMap (·.2.nodes) := by
  induction found generalizing offset with
  | nil => rfl
  | cons entry found ih =>
      rw [subroutineChecks, List.filterMap_append, Pattern.filterMap_node?_checks, ih,
        List.flatMap_cons]

/-- The nodes that are entered are those of the root and of the definitions it reaches. -/
theorem filterMap_node?_checks (pattern : Pattern) :
    (checks definitions pattern).filterMap Check.node? =
      pattern.nodes ++ (subroutines definitions pattern).flatMap (·.2.nodes) := by
  have hcalls (calls : List (Nat × Char)) :
      (calls.map fun call => Check.subroutine (startOf definitions pattern call.2)).filterMap
        Check.node? = [] := by
    simp [List.filterMap_map, Function.comp_def, Check.node?]
  have htables (places : List Nat) : (places.map Check.table).filterMap Check.node? = [] := by
    simp [List.filterMap_map, Function.comp_def, Check.node?]
  simp only [checks, List.filterMap_append, Pattern.filterMap_node?_checks,
    filterMap_node?_subroutineChecks, hcalls, htables, List.append_nil]

/-! ## Every call leads to a subroutine -/

private theorem mem_mentions_of_mem_calls {found : List (Char × Pattern)} {offset : Nat}
    {call : Nat × Char} (h : call ∈ calls offset (subroutineCode definitions found offset)) :
    ∃ entry ∈ found, call.2 ∈ entry.2.mentions definitions := by
  induction found generalizing offset with
  | nil => contradiction
  | cons entry found ih =>
      obtain ⟨name, body⟩ := entry
      simp only [subroutineCode, calls_append, calls_cons, callAt, Option.toList_none,
        List.nil_append, Pattern.span_instructions] at h
      rcases List.mem_append.mp h with h | h
      · refine ⟨_, List.mem_cons_self, ?_⟩
        rw [Pattern.mentions, ← Pattern.calls_instructions definitions body offset]
        exact List.mem_map_of_mem h
      · obtain ⟨entry, hentry, hmem⟩ := ih h
        exact ⟨entry, List.mem_cons_of_mem _ hentry, hmem⟩

theorem reached_of_mem_calls {pattern : Pattern} {call : Nat × Char}
    (h : call ∈ calls 0 (program definitions pattern)) :
    Reached definitions pattern call.2 := by
  simp only [program, calls_append, calls_cons, callAt, Option.toList_none, List.nil_append,
    Pattern.span_instructions, Nat.zero_add] at h
  rcases List.mem_append.mp h with h | h
  · apply Reached.mentioned
    rw [Pattern.mentions, ← Pattern.calls_instructions definitions pattern 0]
    exact List.mem_map_of_mem h
  · obtain ⟨⟨name, body⟩, hentry, hmem⟩ := mem_mentions_of_mem_calls definitions h
    have hname := (mem_subroutines_iff definitions pattern name).mp
      (List.mem_map_of_mem hentry)
    exact .through hname (find?_of_mem_reached definitions hentry) hmem

theorem find?_startOf_of_reached {pattern : Pattern} {name : Char}
    (h : Reached definitions pattern name) :
    (subroutineStarts definitions (subroutines definitions pattern)
      (pattern.codeSize definitions + 1)).find? name =
        some (startOf definitions pattern name) := by
  rw [← mem_subroutines_iff, ← map_fst_subroutineStarts definitions _
    (pattern.codeSize definitions + 1), ← Dictionary.hasName_iff, ← Dictionary.isSome_find?] at h
  obtain ⟨start, hstart⟩ := Option.isSome_iff_exists.mp h
  rw [startOf, hstart, Option.getD_some]

private theorem callFault_eq_findSome? {starts : Dictionary Nat} {startOf : Char → Nat}
    {calls : List (Nat × Char)} (h : ∀ call ∈ calls, starts.find? call.2 = some (startOf call.2)) :
    callFault starts calls =
      (calls.map fun call => Check.subroutine (startOf call.2)).findSome? Check.failure := by
  induction calls with
  | nil => rfl
  | cons call calls ih =>
      obtain ⟨offset, name⟩ := call
      have hname : starts.find? name = some (startOf name) := h _ List.mem_cons_self
      have hothers := ih fun call hcall => h call (List.mem_cons_of_mem _ hcall)
      rw [List.map_cons, Check.findSome?_failure_cons, ← hothers]
      simp only [callFault, hname]
      rfl

/-! ## Every table stands behind what it mentions -/

/-- The count and the entries of the tables are at most `bound`. -/
def EntriesWithin (bound : Nat) (instructions : List Instruction) : Prop :=
  ∀ starts, .pick starts ∈ instructions → ∀ n ∈ starts.length :: starts, n ≤ bound

theorem findSome?_addressFault {numbers : List Nat} (h : ∀ n ∈ numbers, n ≤ 0xFFFF) :
    numbers.findSome? addressFault = none := by
  rw [List.findSome?_eq_none_iff]
  intro n hn
  exact if_pos (h n hn)

private theorem tableFault_eq_findSome? {bound table : Nat} {instructions : List Instruction}
    (hentries : EntriesWithin bound instructions) (hle : bound ≤ table) :
    tableFault table instructions =
      ((tablePlaces table instructions).map Check.table).findSome? Check.failure := by
  induction instructions generalizing table with
  | nil => rfl
  | cons instruction instructions ih =>
      have hothers : EntriesWithin bound instructions :=
        fun starts hmem => hentries starts (List.mem_cons_of_mem _ hmem)
      cases instruction with
      | halt | ret | put | jump | call => exact ih hothers hle
      | pick starts =>
          have hrest : tableFault (table + tableSize (.pick starts)) instructions = _ :=
            ih hothers (by omega)
          rw [tablePlaces, List.map_cons, Check.findSome?_failure_cons, ← hrest, tableFault,
            tableSize, Nat.add_assoc]
          change _ = (addressFault table).or _
          cases hfault : addressFault table with
          | some e => rfl
          | none =>
              have htable := le_of_addressFault hfault
              rw [findSome?_addressFault fun n hn => ?_]
              · rfl
              · have := hentries starts List.mem_cons_self n hn
                omega

theorem entriesWithin_of_closed {offset : Nat} {instructions : List Instruction}
    (h : Closed offset instructions) : EntriesWithin (offset + span instructions) instructions := by
  intro starts hmem n hn
  obtain ⟨place, hplace⟩ := exists_mem_placed offset hmem
  obtain ⟨⟨stop, hstop, hlength⟩, hstarts⟩ := h _ hplace
  have := hstop.le
  rcases List.mem_cons.mp hn with rfl | hn
  · omega
  · exact (hstarts n hn).2.le.2

/-! ## The first check that fails -/

theorem compileFault_eq_findSome? (pattern : Pattern) :
    compileFault definitions pattern = (checks definitions pattern).findSome? Check.failure := by
  have hcalls (call : Nat × Char) (hcall : call ∈ calls 0 (program definitions pattern)) :=
    find?_startOf_of_reached definitions (reached_of_mem_calls definitions hcall)
  have hentries := entriesWithin_of_closed (closed_program definitions pattern)
  rw [Nat.zero_add] at hentries
  simp only [compileFault, checks, List.findSome?_append]
  rw [Pattern.fault_eq_findSome?, subroutineFault_eq_findSome?, callFault_eq_findSome? hcalls,
    tableFault_eq_findSome? hentries (Nat.le_refl _)]

/-- A compilation that succeeds has entered no empty node. -/
theorem isEmpty_of_compile {pattern : Pattern} {code : Bytecode}
    (hcode : compile pattern definitions = .ok code) {node : Pattern}
    (hnode : node ∈ pattern.nodes ++ (subroutines definitions pattern).flatMap (·.2.nodes)) :
    node.isEmpty = false := by
  have hfault := ((compile_eq_ok_iff definitions).mp hcode).1
  rw [compileFault_eq_findSome?, List.findSome?_eq_none_iff] at hfault
  rw [← filterMap_node?_checks] at hnode
  obtain ⟨check, hcheck, hnode⟩ := List.mem_filterMap.mp hnode
  have hpassed := hfault check hcheck
  cases check with
  | node entered =>
      cases hnode
      simpa [Check.failure] using hpassed
  | choiceEnd | subroutine | table => contradiction

end Layout

end Wordmill
