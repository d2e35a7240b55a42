import Mathlib.Algebra.GroupWithZero.Nat
import Mathlib.Algebra.Order.BigOperators.Group.List
import Mathlib.Algebra.Order.Group.Nat
import Wordmill.Proofs.Grammar.Gathering
import Wordmill.Proofs.Grammar.ScopeTree
import Wordmill.Proofs.Text.Offsets

/-!
# How much a file holds

A definition is copied into the scopes of the definitions that see it, but what it
says stands in one line.  So the sources under different names are together no
longer than the file, and so are the names in scopes that are nested in each other.
-/

namespace Wordmill

namespace Grammar

open Text (bytes)

namespace Line

/-- How much of the text of a line becomes a source. -/
def extent : Line → Nat
  | .ignored => 0
  | .definition _ source => bytes source
  | .root source => bytes source

/-- How much of a line is what it says about the name. -/
def extentFor (line : Line) (name : Char) : Nat :=
  match line with
  | .definition [defined] source => if defined = name then bytes source else 0
  | _ => 0

end Line

/-! ## Lines -/

private theorem sublist_of_defines {line name source : List Char} (h : Defines line name source) :
    List.Sublist source line := by
  cases h with
  | @mk first more value back _ _ _ _ =>
      have hvalue := (Text.trim_sublist value).trans (List.sublist_append_left value back)
      exact ((hvalue.cons '=').trans (List.sublist_append_right more _)).cons first

private theorem sublist_of_uncommented {line source : List Char} (h : Uncommented line source) :
    List.Sublist source line := by
  cases h with
  | @comment c front back _ =>
      exact (Text.trimEnd_sublist front).trans (List.sublist_append_left ..)
  | ending _ => exact List.Sublist.refl _
  | plain _ => exact List.Sublist.refl _

private theorem extent_ofText_le (text : List Char) : (Line.ofText text).extent ≤ bytes text := by
  have hreads := Line.ofText_eq_iff.mp (rfl : Line.ofText text = _)
  generalize Line.ofText text = line at hreads
  cases hreads with
  | blank _ => exact Nat.zero_le _
  | comment _ => exact Nat.zero_le _
  | definition _ hdefines =>
      exact Text.bytes_le_of_sublist ((sublist_of_defines hdefines).trans (Text.trim_sublist text))
  | root _ _ _ huncommented =>
      exact Text.bytes_le_of_sublist
        ((sublist_of_uncommented huncommented).trans (withoutReturn_sublist text))

private theorem sum_map_eq_zero {f : Char → Nat} {names : List Char}
    (h : ∀ name ∈ names, f name = 0) : (names.map f).sum = 0 := by
  refine List.sum_eq_zero fun n hn => ?_
  obtain ⟨name, hname, rfl⟩ := List.mem_map.mp hn
  exact h name hname

private theorem extentFor_le (line : Line) (name : Char) : line.extentFor name ≤ line.extent := by
  unfold Line.extentFor
  split
  · split
    · exact Nat.le_refl _
    · exact Nat.zero_le _
  · exact Nat.zero_le _

/-- A line says something about one name at most. -/
private theorem extentFor_of_ne {line : Line} {name other : Char} (h : line.extentFor name ≠ 0)
    (hne : name ≠ other) : line.extentFor other = 0 := by
  unfold Line.extentFor at h ⊢
  split at h
  · split at h
    · rename_i heq
      exact if_neg fun hother => hne (heq.symm.trans hother)
    · contradiction
  · contradiction

private theorem sum_extentFor_le (line : Line) {names : List Char} (h : names.Nodup) :
    (names.map line.extentFor).sum ≤ line.extent := by
  induction names with
  | nil => exact Nat.zero_le _
  | cons name names ih =>
      obtain ⟨hname, hnames⟩ := List.nodup_cons.mp h
      rw [List.map_cons, List.sum_cons]
      by_cases hzero : line.extentFor name = 0
      · rw [hzero, Nat.zero_add]
        exact ih hnames
      · have hothers : (names.map line.extentFor).sum = 0 := sum_map_eq_zero fun other hother =>
          extentFor_of_ne hzero (ne_of_mem_of_not_mem hother hname).symm
        rw [hothers]
        exact extentFor_le line name

/-- Nor does it say anything about a name if it is a root. -/
private theorem sum_extentFor_root_le (line : Line) {names : List Char} (h : names.Nodup) :
    (line.root?.toList.map bytes).sum + (names.map line.extentFor).sum ≤ line.extent := by
  have hnames := sum_extentFor_le line h
  cases line with
  | ignored => simpa [Line.root?] using hnames
  | definition name source => simpa [Line.root?] using hnames
  | root source =>
      have hnone : (names.map (Line.extentFor (.root source))).sum = 0 :=
        sum_map_eq_zero fun _ _ => rfl
      simp [Line.root?, Line.extent, hnone]

/-- All that lines say about a name. -/
def extentOf (lines : List Line) (name : Char) : Nat :=
  (lines.map fun line => line.extentFor name).sum

/-- Together the root and the definitions of different names are no longer than the lines. -/
theorem sum_extentOf_le (lines : List Line) {names : List Char} (h : names.Nodup) :
    ((rootSources lines).map bytes).sum + (names.map (extentOf lines)).sum ≤
      (lines.map Line.extent).sum := by
  induction lines with
  | nil =>
      have hnone : (names.map (extentOf [])).sum = 0 := sum_map_eq_zero fun _ _ => rfl
      simp [rootSources, hnone]
  | cons line lines ih =>
      have hline := sum_extentFor_root_le line h
      have hroots : rootSources (line :: lines) = line.root?.toList ++ rootSources lines := by
        cases hroot : line.root? <;> simp [rootSources, hroot]
      have hnames : (names.map (extentOf (line :: lines))).sum =
          (names.map line.extentFor).sum + (names.map (extentOf lines)).sum :=
        List.sum_map_add
      rw [hroots, hnames, List.map_append, List.sum_append, List.map_cons, List.sum_cons]
      omega

/-! ## Scopes -/

variable {lines : List Line} {limit : Nat} {grammar : Grammar}

theorem ScopeTree.of_mem {name : Char} {scope : Grammar} (h : ScopeTree lines limit grammar)
    (hmem : (name, scope) ∈ grammar.definitions) :
    name ∈ grammar.source ∧ ∃ i < limit, lines[i]? = some (.definition [name] scope.source) ∧
      ScopeTree lines i scope := by
  cases h with
  | @mk _ source definitions sorted names sources scopes =>
      have hfind := sorted.mem_iff.mp hmem
      have hname : definitions.hasName name = true := by
        rw [← Dictionary.isSome_find?, hfind, Option.isSome_some]
      obtain ⟨hsource, hdefined⟩ := (names name).mp hname
      obtain ⟨i, inner, hlast⟩ := exists_lastDefinition hdefined
      refine ⟨hsource, i, hlast.above, ?_, scopes name scope i inner hfind hlast⟩
      rw [sources name scope i inner hfind hlast]
      exact hlast.defines

/-- Whatever is in a scope stands in a line. -/
theorem ScopeTree.mem_lines {definitions : Dictionary Grammar} {source : List Char} {name : Char}
    {held : Grammar} (h : ScopeTree lines limit (.mk source definitions))
    (hheld : Holds definitions name held) : .definition [name] held.source ∈ lines := by
  induction hheld generalizing limit source with
  | direct hmem =>
      obtain ⟨-, i, -, hline, -⟩ := h.of_mem hmem
      exact List.mem_of_getElem? hline
  | @nested definitions name other held outer hmem _ ih =>
      obtain ⟨-, i, -, -, houter⟩ := h.of_mem hmem
      cases outer
      exact ih houter

/--
A stack of `limit` dictionaries has room for those of the definitions and, above
all of them, for those that are nested in any one of the definitions.
-/
inductive StackFits : Nat → Dictionary Grammar → Prop
  | mk {limit above : Nat} {definitions : Dictionary Grammar} :
      definitions.length + above ≤ limit →
      (∀ entry ∈ definitions, StackFits above entry.2.definitions) → StackFits limit definitions

theorem StackFits.mono {more : Nat} {definitions : Dictionary Grammar}
    (h : StackFits limit definitions) (hmore : limit ≤ more) : StackFits more definitions := by
  cases h with
  | mk hlimit hentries => exact .mk (Nat.le_trans hlimit hmore) hentries

private theorem sum_take_le {i : Nat} {line : Line} (hline : lines[i]? = some line)
    (hi : i < limit) :
    line.extent + ((lines.take i).map Line.extent).sum ≤
      ((lines.take limit).map Line.extent).sum := by
  have htake : lines.take (i + 1) = lines.take i ++ [line] := by
    rw [List.take_add_one, hline]
    rfl
  have hsublist : List.Sublist (lines.take (i + 1)) (lines.take limit) :=
    (List.take_prefix_take_left hi).sublist
  have hsum := (hsublist.map Line.extent).sum_le_sum fun n _ => Nat.zero_le n
  rw [htake, List.map_append, List.sum_append, List.map_singleton, List.sum_singleton] at hsum
  omega

private theorem ScopeTree.length_le (h : ScopeTree lines limit grammar) :
    grammar.definitions.length ≤ bytes grammar.source := by
  have hnodup : (grammar.definitions.map (·.1)).Nodup := by
    cases h with
    | @mk _ _ definitions sorted _ _ _ =>
        refine List.pairwise_map.mpr (List.Pairwise.imp ?_ sorted)
        intro entry later hlt heq
        exact Char.lt_irrefl _ (heq ▸ hlt)
  have hsubset : grammar.definitions.map (·.1) ⊆ grammar.source := by
    intro name hname
    obtain ⟨entry, hentry, rfl⟩ := List.mem_map.mp hname
    exact (h.of_mem hentry).1
  have hlength := hnodup.length_le_of_subset hsubset
  rw [List.length_map] at hlength
  exact Nat.le_trans hlength (Text.length_le_bytes grammar.source)

/-- The names of a scope occur in its source, and those of the scopes in it further up. -/
theorem ScopeTree.stackFits (h : ScopeTree lines limit grammar) :
    StackFits (bytes grammar.source + ((lines.take limit).map Line.extent).sum)
      grammar.definitions := by
  induction limit using Nat.strong_induction_on generalizing grammar with
  | _ limit ih =>
      refine .mk (Nat.add_le_add_right h.length_le _) ?_
      rintro ⟨name, scope⟩ hentry
      obtain ⟨-, i, hi, hline, hscope⟩ := h.of_mem hentry
      exact (ih i hi hscope).mono (sum_take_le hline hi)

/-! ## Files -/

/-- The grammar has been loaded from `limit` bytes: what that says about its size. -/
structure WrittenIn (grammar : Grammar) (limit : Nat) : Prop where
  stack : StackFits (2 * limit) grammar.definitions
  sources : ∃ room : Char → Nat,
    (∀ name held, Holds grammar.definitions name held → bytes held.source ≤ room name) ∧
      ∀ names : List Char, names.Nodup → bytes grammar.source + (names.map room).sum ≤ limit

private theorem named_of_addLine {loading next : Loading} {text : List Char}
    (h : loading.addLine text = .ok next) : (Line.ofText text).Named := by
  cases hline : Line.ofText text with
  | ignored => trivial
  | root source => trivial
  | definition name source =>
      by_contra hname
      rw [Loading.addLine_unnamed hline hname] at h
      contradiction

private theorem named_of_addLines {loading next : Loading} {texts : List (List Char)}
    (h : loading.addLines texts = .ok next) : ∀ text ∈ texts, (Line.ofText text).Named := by
  induction texts generalizing loading with
  | nil => simp
  | cons text texts ih =>
      rw [Loading.addLines] at h
      split at h
      · contradiction
      · rename_i added hadded
        exact List.forall_mem_cons.mpr ⟨named_of_addLine hadded, ih h⟩

private theorem scopeTree_of_load {text : List Char} (h : load text = .ok grammar) :
    rootSources (fileLines text) = [grammar.source] ∧
      ScopeTree (fileLines text) (fileLines text).length grammar := by
  have hnamed : ∀ line ∈ fileLines text, line.Named := by
    unfold load at h
    split at h
    · contradiction
    · rename_i loading hloading
      intro line hline
      obtain ⟨piece, hpiece, rfl⟩ := List.mem_map.mp hline
      exact named_of_addLines hloading piece hpiece
  obtain ⟨loading, hload, hloaded, hroots⟩ := load_of_named hnamed
  rw [hload] at h
  unfold Loading.finish at h
  split at h
  · contradiction
  · rename_i root hroot
    cases h
    rw [hroot] at hroots
    exact ⟨hroots.symm, hloaded.scopeTree root⟩
  · contradiction

private theorem sum_extent_fileLines_le (text : List Char) :
    ((fileLines text).map Line.extent).sum ≤ bytes text := by
  rw [fileLines, List.map_map]
  exact Nat.le_trans (List.sum_le_sum fun line _ => extent_ofText_le line)
    (Text.sum_bytes_splitOn_le '\n' text)

theorem writtenIn_of_load {text : List Char} (h : load text = .ok grammar) :
    grammar.WrittenIn (bytes text) := by
  obtain ⟨hroot, htree⟩ := scopeTree_of_load h
  have hlines := sum_extent_fileLines_le text
  have hsum (names : List Char) (hnames : names.Nodup) :
      bytes grammar.source + (names.map (extentOf (fileLines text))).sum ≤ bytes text := by
    have := sum_extentOf_le (fileLines text) hnames
    rw [hroot, List.map_singleton, List.sum_singleton] at this
    omega
  refine ⟨htree.stackFits.mono ?_, extentOf (fileLines text), ?_, hsum⟩
  · have hsource := hsum [] List.nodup_nil
    rw [List.take_length]
    omega
  · intro name held hheld
    cases grammar
    have hmem := htree.mem_lines hheld
    refine List.le_sum_of_mem (List.mem_map.mpr ⟨_, hmem, ?_⟩)
    exact if_pos rfl

end Grammar

end Wordmill
