import Mathlib.Data.List.Chain
import Mathlib.Logic.Relation
import Wordmill.Pattern.Basic

/-!
# Regrouping

Groups within groups make no difference to what a pattern means.  A step of
regrouping takes one of them apart or joins two neighbouring texts, at any depth,
and `flatten` goes on until there is nothing left to regroup.
-/

namespace Wordmill

namespace Pattern

inductive Regroups : Pattern → Pattern → Prop
  | splice (front parts back : List Pattern) :
      Regroups (.sequence (front ++ .sequence parts :: back))
        (.sequence (front ++ (parts ++ back)))
  | single (part : Pattern) : Regroups (.sequence [part]) part
  | joinText (front back : List Pattern) (first second : List Char) :
      Regroups (.sequence (front ++ .text first :: .text second :: back))
        (.sequence (front ++ .text (first ++ second) :: back))
  | joinQuoted (front back : List Pattern) (first second : List Char) :
      Regroups (.sequence (front ++ .quoted first :: .quoted second :: back))
        (.sequence (front ++ .quoted (first ++ second) :: back))
  | part (front back : List Pattern) {old new : Pattern} : Regroups old new →
      Regroups (.sequence (front ++ old :: back)) (.sequence (front ++ new :: back))
  | alternative (front back : List Pattern) {old new : Pattern} : Regroups old new →
      Regroups (.choice (front ++ old :: back)) (.choice (front ++ new :: back))
  | body {old new : Pattern} : Regroups old new → Regroups (.optional old) (.optional new)

/-- Any number of steps. -/
abbrev RegroupsTo : Pattern → Pattern → Prop := Relation.ReflTransGen Regroups

/-! ## All steps at once -/

/-- What stands for a pattern among the parts of a sequence. -/
def spliced : Pattern → List Pattern
  | .sequence parts => parts
  | pattern => [pattern]

/-- Put a part in front of others and join it with the first of them if it can be joined. -/
def joinTo : Pattern → List Pattern → List Pattern
  | .text first, .text second :: others => .text (first ++ second) :: others
  | .quoted first, .quoted second :: others => .quoted (first ++ second) :: others
  | part, others => part :: others

def joined (parts : List Pattern) : List Pattern := parts.foldr joinTo []

/-- A sequence of one is that one. -/
def ofParts : List Pattern → Pattern
  | [part] => part
  | parts => .sequence parts

mutual

def flatten : Pattern → Pattern
  | .sequence parts => ofParts (joined ((flattenEach parts).flatMap spliced))
  | .text chars => .text chars
  | .quoted chars => .quoted chars
  | .choice alternatives => .choice (flattenEach alternatives)
  | .optional body => .optional (flatten body)

def flattenEach : List Pattern → List Pattern
  | [] => []
  | pattern :: patterns => flatten pattern :: flattenEach patterns

end

/-- What may be regrouped one step at a time may be regrouped in several. -/
theorem regroupsTo_within (context : Pattern → Pattern)
    (hcontext : ∀ {old new}, Regroups old new → Regroups (context old) (context new))
    {old new : Pattern} (h : RegroupsTo old new) : RegroupsTo (context old) (context new) :=
  h.lift context fun _ _ hstep => hcontext hstep

/-- The last parts of a sequence may be regrouped, whatever stands in front of them. -/
def PartsRegroupTo (old new : List Pattern) : Prop :=
  ∀ front : List Pattern, RegroupsTo (.sequence (front ++ old)) (.sequence (front ++ new))

theorem PartsRegroupTo.cons {old new : List Pattern} (h : PartsRegroupTo old new)
    (part : Pattern) : PartsRegroupTo (part :: old) (part :: new) := by
  intro front
  rw [List.append_cons front part old, List.append_cons front part new]
  exact h (front ++ [part])

theorem PartsRegroupTo.trans {old middle new : List Pattern} (hold : PartsRegroupTo old middle)
    (hnew : PartsRegroupTo middle new) : PartsRegroupTo old new :=
  fun front => (hold front).trans (hnew front)

private theorem partsRegroupTo_spliced (parts : List Pattern) :
    PartsRegroupTo parts (parts.flatMap spliced) := by
  induction parts with
  | nil => exact fun _ => .refl
  | cons part parts ih =>
      cases part with
      | sequence inner =>
          intro front
          have hrest := ih (front ++ inner)
          rw [List.append_assoc, List.append_assoc] at hrest
          exact .head (.splice front inner parts) hrest
      | text | quoted | choice | optional => exact ih.cons _

private theorem partsRegroupTo_joinTo (part : Pattern) (others : List Pattern) :
    PartsRegroupTo (part :: others) (joinTo part others) := by
  intro front
  unfold joinTo
  split
  · exact .single (.joinText front _ _ _)
  · exact .single (.joinQuoted front _ _ _)
  · exact .refl

private theorem partsRegroupTo_joined (parts : List Pattern) :
    PartsRegroupTo parts (joined parts) := by
  induction parts with
  | nil => exact fun _ => .refl
  | cons part parts ih => exact (ih.cons part).trans (partsRegroupTo_joinTo part (joined parts))

private theorem regroupsTo_ofParts (parts : List Pattern) :
    RegroupsTo (.sequence parts) (ofParts parts) := by
  unfold ofParts
  split
  · exact .single (.single _)
  · exact .refl

mutual

theorem regroupsTo_flatten (pattern : Pattern) : RegroupsTo pattern pattern.flatten := by
  cases pattern with
  | text chars | quoted chars => exact .refl
  | sequence parts =>
      have hparts := ((partsRegroupTo_flattenEach parts).trans (partsRegroupTo_spliced _)).trans
        (partsRegroupTo_joined _)
      exact (hparts []).trans (regroupsTo_ofParts _)
  | choice alternatives => exact choiceRegroupsTo_flattenEach [] alternatives
  | optional body => exact regroupsTo_within .optional .body (regroupsTo_flatten body)

theorem partsRegroupTo_flattenEach (parts : List Pattern) :
    PartsRegroupTo parts (flattenEach parts) := by
  match parts with
  | [] => exact fun _ => .refl
  | part :: parts =>
      intro front
      have hpart := regroupsTo_within (fun part => .sequence (front ++ part :: parts))
        (.part front parts) (regroupsTo_flatten part)
      exact hpart.trans ((partsRegroupTo_flattenEach parts).cons part.flatten front)

theorem choiceRegroupsTo_flattenEach (front alternatives : List Pattern) :
    RegroupsTo (.choice (front ++ alternatives)) (.choice (front ++ flattenEach alternatives)) := by
  match alternatives with
  | [] => exact .refl
  | alternative :: others =>
      have halternative := regroupsTo_within
        (fun alternative => .choice (front ++ alternative :: others))
        (.alternative front others) (regroupsTo_flatten alternative)
      have hothers := choiceRegroupsTo_flattenEach (front ++ [alternative.flatten]) others
      rw [List.append_assoc, List.append_assoc] at hothers
      exact halternative.trans hothers

end

/-! ## Nothing is left to regroup -/

def isSequence : Pattern → Bool
  | .sequence _ => true
  | _ => false

/-- Neighbours that cannot be joined. -/
def Unlike : Pattern → Pattern → Prop
  | .text _, .text _ => False
  | .quoted _, .quoted _ => False
  | _, _ => True

theorem Unlike.text {first second : List Char} {next : Pattern} (h : Unlike (.text first) next) :
    Unlike (.text second) next := by
  cases next <;> exact h

theorem Unlike.quoted {first second : List Char} {next : Pattern}
    (h : Unlike (.quoted first) next) : Unlike (.quoted second) next := by
  cases next <;> exact h

inductive Flat : Pattern → Prop
  | text (chars : List Char) : Flat (.text chars)
  | quoted (chars : List Char) : Flat (.quoted chars)
  | choice {alternatives : List Pattern} : (∀ alternative ∈ alternatives, Flat alternative) →
      Flat (.choice alternatives)
  | optional {body : Pattern} : Flat body → Flat (.optional body)
  | sequence {parts : List Pattern} : parts.length ≠ 1 → (∀ part ∈ parts, Flat part) →
      (∀ part ∈ parts, part.isSequence = false) → parts.IsChain Unlike → Flat (.sequence parts)

theorem Flat.not_regroups {pattern next : Pattern} (h : pattern.Flat) :
    ¬ Regroups pattern next := by
  intro hstep
  induction hstep with
  | splice front parts back =>
      cases h with
      | sequence _ _ hinner _ =>
          have := hinner (.sequence parts) (by simp)
          contradiction
  | single part =>
      cases h with
      | sequence hlength _ _ _ => exact hlength rfl
  | joinText front back first second | joinQuoted front back first second =>
      cases h with
      | sequence _ _ _ hchain => exact (List.isChain_append_cons_cons.mp hchain).2.1
  | part front back _ ih =>
      cases h with
      | sequence _ hflat _ _ => exact ih (hflat _ (by simp))
  | alternative front back _ ih =>
      cases h with
      | choice hflat => exact ih (hflat _ (by simp))
  | body _ ih =>
      cases h with
      | optional hflat => exact ih hflat

/-- Parts of which none is a sequence and no neighbours can be joined. -/
structure FlatParts (parts : List Pattern) : Prop where
  flat : ∀ part ∈ parts, part.Flat
  single : ∀ part ∈ parts, part.isSequence = false
  unlike : parts.IsChain Unlike

theorem flatParts_cons_iff {part : Pattern} {parts : List Pattern} :
    FlatParts (part :: parts) ↔
      (part.Flat ∧ part.isSequence = false ∧ ∀ next ∈ parts.head?, Unlike part next) ∧
        FlatParts parts := by
  constructor
  · rintro ⟨hflat, hsingle, hunlike⟩
    rw [List.isChain_cons] at hunlike
    rw [List.forall_mem_cons] at hflat hsingle
    exact ⟨⟨hflat.1, hsingle.1, hunlike.1⟩, hflat.2, hsingle.2, hunlike.2⟩
  · rintro ⟨⟨hflat, hsingle, hunlike⟩, hparts⟩
    exact ⟨List.forall_mem_cons.mpr ⟨hflat, hparts.flat⟩,
      List.forall_mem_cons.mpr ⟨hsingle, hparts.single⟩,
      List.isChain_cons.mpr ⟨hunlike, hparts.unlike⟩⟩

theorem FlatParts.joinTo {part : Pattern} {others : List Pattern} (hflat : part.Flat)
    (hsingle : part.isSequence = false) (h : FlatParts others) :
    FlatParts (part.joinTo others) := by
  unfold Pattern.joinTo
  split
  · rename_i first second others
    obtain ⟨⟨-, -, hnext⟩, hothers⟩ := flatParts_cons_iff.mp h
    exact flatParts_cons_iff.mpr ⟨⟨.text _, rfl, fun next h => (hnext next h).text⟩, hothers⟩
  · rename_i first second others
    obtain ⟨⟨-, -, hnext⟩, hothers⟩ := flatParts_cons_iff.mp h
    exact flatParts_cons_iff.mpr ⟨⟨.quoted _, rfl, fun next h => (hnext next h).quoted⟩, hothers⟩
  · rename_i htext hquoted
    refine flatParts_cons_iff.mpr ⟨⟨hflat, hsingle, fun next hnext => ?_⟩, h⟩
    obtain ⟨others, rfl⟩ := List.head?_eq_some_iff.mp hnext
    cases part <;> cases next <;> simp_all [Unlike]

private theorem flatParts_joined {parts : List Pattern}
    (h : ∀ part ∈ parts, part.Flat ∧ part.isSequence = false) : FlatParts (joined parts) := by
  induction parts with
  | nil => exact ⟨by simp [joined], by simp [joined], .nil⟩
  | cons part parts ih =>
      obtain ⟨⟨hflat, hsingle⟩, hparts⟩ := List.forall_mem_cons.mp h
      exact (ih hparts).joinTo hflat hsingle

private theorem flat_ofParts {parts : List Pattern} (h : FlatParts parts) :
    (ofParts parts).Flat := by
  unfold ofParts
  split
  · exact h.flat _ List.mem_cons_self
  · rename_i hlength
    refine .sequence (fun hone => ?_) h.flat h.single h.unlike
    obtain ⟨part, rfl⟩ := List.length_eq_one_iff.mp hone
    exact hlength part rfl

private theorem Flat.of_mem_spliced {pattern part : Pattern} (h : pattern.Flat)
    (hpart : part ∈ pattern.spliced) : part.Flat ∧ part.isSequence = false := by
  cases pattern with
  | sequence parts =>
      cases h with
      | sequence _ hflat hsingle _ => exact ⟨hflat part hpart, hsingle part hpart⟩
  | text | quoted | choice | optional =>
      cases List.mem_singleton.mp hpart
      exact ⟨h, rfl⟩

mutual

theorem flat_flatten (pattern : Pattern) : pattern.flatten.Flat := by
  cases pattern with
  | sequence parts =>
      refine flat_ofParts (flatParts_joined fun part hpart => ?_)
      obtain ⟨pattern, hpattern, hpart⟩ := List.mem_flatMap.mp hpart
      exact (flat_flattenEach parts pattern hpattern).of_mem_spliced hpart
  | text chars => exact .text chars
  | quoted chars => exact .quoted chars
  | choice alternatives => exact .choice (flat_flattenEach alternatives)
  | optional body => exact .optional (flat_flatten body)

theorem flat_flattenEach (patterns : List Pattern) :
    ∀ pattern ∈ flattenEach patterns, pattern.Flat := by
  match patterns with
  | [] => simp [flattenEach]
  | pattern :: patterns =>
      exact List.forall_mem_cons.mpr ⟨flat_flatten pattern, flat_flattenEach patterns⟩

end

end Pattern

end Wordmill
