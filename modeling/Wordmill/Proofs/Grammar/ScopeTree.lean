import Wordmill.Grammar.Load
import Wordmill.Proofs.Dictionary
import Wordmill.Proofs.Grammar.Line

/-!
# The scopes of a file

A definition is kept together with the definitions above it as they were when
its line was read.  So every scope belongs to a line, at whatever depth it is
found, and a name in it means what the last definition above that line says.
-/

namespace Wordmill.Grammar

def Line.root? : Line → Option (List Char)
  | .root source => some source
  | _ => none

def rootSources (lines : List Line) : List (List Char) := lines.filterMap Line.root?

/-- Names of definitions have one character. -/
def Line.Named : Line → Prop
  | .definition name _ => name.length = 1
  | _ => True

/-! ## The last definition above a line -/

def Defined (lines : List Line) (limit : Nat) (name : Char) : Prop :=
  ∃ i < limit, ∃ source, lines[i]? = some (.definition [name] source)

/-- Among the lines above `limit`, line `i` is the last one that defines the name. -/
structure LastDefinition (lines : List Line) (limit : Nat) (name : Char) (i : Nat)
    (source : List Char) : Prop where
  above : i < limit
  defines : lines[i]? = some (.definition [name] source)
  last : ∀ k other, i < k → k < limit → lines[k]? ≠ some (.definition [name] other)

section

variable {lines : List Line} {limit i j : Nat} {name : Char} {source other : List Char}

theorem defined_succ_iff :
    Defined lines (limit + 1) name ↔
      Defined lines limit name ∨ ∃ source, lines[limit]? = some (.definition [name] source) := by
  constructor
  · rintro ⟨i, hi, source, hline⟩
    rcases Nat.lt_succ_iff_lt_or_eq.mp hi with hi | rfl
    · exact .inl ⟨i, hi, source, hline⟩
    · exact .inr ⟨source, hline⟩
  · rintro (⟨i, hi, source, hline⟩ | ⟨source, hline⟩)
    · exact ⟨i, Nat.lt_succ_of_lt hi, source, hline⟩
    · exact ⟨limit, Nat.lt_succ_self limit, source, hline⟩

theorem LastDefinition.unique (h : LastDefinition lines limit name i source)
    (hother : LastDefinition lines limit name j other) : i = j ∧ source = other := by
  obtain rfl : i = j := by
    rcases Nat.lt_trichotomy i j with hlt | rfl | hlt
    · exact absurd hother.defines (h.last j other hlt hother.above)
    · rfl
    · exact absurd h.defines (hother.last i source hlt h.above)
  have hline := h.defines.symm.trans hother.defines
  simp only [Option.some.injEq, Line.definition.injEq] at hline
  exact ⟨rfl, hline.2⟩

theorem lastDefinition_here (h : lines[limit]? = some (.definition [name] source)) :
    LastDefinition lines (limit + 1) name limit source where
  above := Nat.lt_succ_self limit
  defines := h
  last := fun k _ hlt hle => absurd hlt (by omega)

/-- A line that does not define the name makes no difference. -/
theorem lastDefinition_succ_iff
    (h : ∀ other, lines[limit]? ≠ some (.definition [name] other)) :
    LastDefinition lines (limit + 1) name i source ↔ LastDefinition lines limit name i source := by
  constructor
  · intro hlast
    refine ⟨?_, hlast.defines, fun k other hik hk => hlast.last k other hik (by omega)⟩
    refine Nat.lt_of_le_of_ne (Nat.le_of_lt_succ hlast.above) ?_
    rintro rfl
    exact h source hlast.defines
  · intro hlast
    refine ⟨Nat.lt_succ_of_lt hlast.above, hlast.defines, ?_⟩
    intro k other hik hk
    rcases Nat.lt_succ_iff_lt_or_eq.mp hk with hk | rfl
    · exact hlast.last k other hik hk
    · exact h other

theorem exists_lastDefinition (h : Defined lines limit name) :
    ∃ i source, LastDefinition lines limit name i source := by
  induction limit with
  | zero =>
      obtain ⟨i, hi, -⟩ := h
      contradiction
  | succ limit ih =>
      by_cases hhere : ∃ source, lines[limit]? = some (.definition [name] source)
      · obtain ⟨source, hline⟩ := hhere
        exact ⟨limit, source, lastDefinition_here hline⟩
      · obtain ⟨i, source, hlast⟩ := ih ((defined_succ_iff.mp h).resolve_right hhere)
        exact ⟨i, source, (lastDefinition_succ_iff (not_exists.mp hhere)).mpr hlast⟩

end

/-! ## Scopes -/

/--
The names in scope are those that occur in the source and are defined above
`limit`.  Each of them stands for its last definition above `limit`, which has
the scopes of its own line.
-/
inductive ScopeTree (lines : List Line) : Nat → Grammar → Prop
  | mk {limit : Nat} {source : List Char} {definitions : Dictionary Grammar}
      (sorted : definitions.Sorted)
      (names : ∀ name, definitions.hasName name = true ↔
        name ∈ source ∧ Defined lines limit name)
      (sources : ∀ name scope i inner, definitions.find? name = some scope →
        LastDefinition lines limit name i inner → scope.source = inner)
      (scopes : ∀ name scope i inner, definitions.find? name = some scope →
        LastDefinition lines limit name i inner → ScopeTree lines i scope) :
      ScopeTree lines limit (.mk source definitions)

/-- There is only one tree of scopes for a source. -/
theorem ScopeTree.unique {lines : List Line} {limit : Nat} {first second : Grammar}
    (hfirst : ScopeTree lines limit first) (hsecond : ScopeTree lines limit second)
    (hsource : first.source = second.source) : first = second := by
  induction hfirst generalizing second with
  | @mk limit source definitions sorted names sources scopes ih =>
      cases hsecond with
      | @mk _ _ found sorted' names' sources' scopes' =>
          cases hsource
          congr 1
          refine sorted.ext sorted' fun name => ?_
          have hsome : (definitions.find? name).isSome = (found.find? name).isSome := by
            rw [Dictionary.isSome_find?, Dictionary.isSome_find?, Bool.eq_iff_iff, names, names']
          cases hscope : definitions.find? name with
          | none =>
              rw [hscope] at hsome
              exact (Option.not_isSome_iff_eq_none.mp (by simp [← hsome])).symm
          | some scope =>
              rw [hscope] at hsome
              obtain ⟨other, hother⟩ := Option.isSome_iff_exists.mp hsome.symm
              have hname : definitions.hasName name = true := by
                rw [← Dictionary.isSome_find?, hscope, Option.isSome_some]
              -- both scopes are those of the last definition of the name
              obtain ⟨i, inner, hlast⟩ := exists_lastDefinition ((names name).mp hname).2
              have hinner : scope.source = other.source :=
                (sources name scope i inner hscope hlast).trans
                  (sources' name other i inner hother hlast).symm
              rw [hother, ih name scope i inner hscope hlast
                (scopes' name other i inner hother hlast) hinner]

/-! ## Loading -/

theorem find?_visible (source : List Char) (definitions : Dictionary Grammar) (name : Char) :
    (visible source definitions).find? name =
      if name ∈ source then definitions.find? name else none := by
  rw [visible, Dictionary.find?_filter source.contains]
  simp

/-- What has been loaded when the lines above `limit` have been read. -/
structure Loaded (lines : List Line) (limit : Nat) (definitions : Dictionary Grammar) : Prop where
  sorted : definitions.Sorted
  names : ∀ name, definitions.hasName name = true ↔ Defined lines limit name
  sources : ∀ name scope i inner, definitions.find? name = some scope →
    LastDefinition lines limit name i inner → scope.source = inner
  scopes : ∀ name scope i inner, definitions.find? name = some scope →
    LastDefinition lines limit name i inner → ScopeTree lines i scope

namespace Loaded

variable {lines : List Line} {limit : Nat} {definitions : Dictionary Grammar}

theorem nil (lines : List Line) : Loaded lines 0 [] where
  sorted := List.Pairwise.nil
  names name := by
    constructor
    · intro h
      contradiction
    · rintro ⟨i, hi, -⟩
      contradiction
  sources _ _ _ _ h := by contradiction
  scopes _ _ _ _ h := by contradiction

theorem scopeTree (h : Loaded lines limit definitions) (source : List Char) :
    ScopeTree lines limit (.mk source (visible source definitions)) := by
  have hfound : ∀ {name scope}, (visible source definitions).find? name = some scope →
      definitions.find? name = some scope := by
    intro name scope hscope
    rw [find?_visible] at hscope
    split at hscope
    · exact hscope
    · contradiction
  refine .mk (h.sorted.filter _) ?_ ?_ ?_
  · intro name
    rw [← Dictionary.isSome_find?, find?_visible, ← h.names, ← Dictionary.isSome_find?]
    split <;> simp_all
  · exact fun name scope i inner hscope => h.sources name scope i inner (hfound hscope)
  · exact fun name scope i inner hscope => h.scopes name scope i inner (hfound hscope)

theorem skip (h : Loaded lines limit definitions)
    (hline : ∀ name source, lines[limit]? ≠ some (.definition [name] source)) :
    Loaded lines (limit + 1) definitions where
  sorted := h.sorted
  names name := by
    rw [h.names, defined_succ_iff]
    simp [hline]
  sources name scope i inner hscope hlast :=
    h.sources name scope i inner hscope ((lastDefinition_succ_iff (hline name)).mp hlast)
  scopes name scope i inner hscope hlast :=
    h.scopes name scope i inner hscope ((lastDefinition_succ_iff (hline name)).mp hlast)

theorem insert (h : Loaded lines limit definitions) {name : Char} {source : List Char}
    (hline : lines[limit]? = some (.definition [name] source)) :
    Loaded lines (limit + 1)
      (definitions.insert name (.mk source (visible source definitions))) := by
  have hothers : ∀ other, other ≠ name →
      ∀ inner, lines[limit]? ≠ some (.definition [other] inner) := by
    intro other hother inner hinner
    rw [hline] at hinner
    simp [Ne.symm hother] at hinner
  constructor
  case sorted => exact h.sorted.insert _
  case names =>
    intro other
    rw [← Dictionary.isSome_find?, Dictionary.find?_insert, defined_succ_iff]
    split
    · rename_i hother
      simp [hother, hline]
    · rename_i hother
      rw [Dictionary.isSome_find?, h.names]
      simp [hothers other hother]
  case sources =>
    intro other scope i inner hscope hlast
    rw [Dictionary.find?_insert] at hscope
    split at hscope
    · rename_i hother
      subst hother
      cases hscope
      exact ((lastDefinition_here hline).unique hlast).2
    · rename_i hother
      exact h.sources other scope i inner hscope
        ((lastDefinition_succ_iff (hothers other hother)).mp hlast)
  case scopes =>
    intro other scope i inner hscope hlast
    rw [Dictionary.find?_insert] at hscope
    split at hscope
    · rename_i hother
      subst hother
      cases hscope
      obtain ⟨rfl, -⟩ := (lastDefinition_here hline).unique hlast
      exact h.scopeTree source
    · rename_i hother
      exact h.scopes other scope i inner hscope
        ((lastDefinition_succ_iff (hothers other hother)).mp hlast)

end Loaded

namespace Loading

variable {loading : Loading} {text : List Char}

theorem addLine_ignored (h : Line.ofText text = .ignored) : loading.addLine text = .ok loading := by
  simp only [addLine, h]

theorem addLine_root {source : List Char} (h : Line.ofText text = .root source) :
    loading.addLine text = .ok { loading with roots := source :: loading.roots } := by
  simp only [addLine, h]

theorem addLine_definition {name : Char} {source : List Char}
    (h : Line.ofText text = .definition [name] source) :
    loading.addLine text = .ok { loading with
      definitions :=
        loading.definitions.insert name (.mk source (visible source loading.definitions)) } := by
  simp only [addLine, h]

theorem addLine_unnamed {name source : List Char} (h : Line.ofText text = .definition name source)
    (hname : name.length ≠ 1) : loading.addLine text = .error (.invalidName name) := by
  match name with
  | [] => simp only [addLine, h]
  | [c] => exact absurd rfl hname
  | c :: d :: others => simp only [addLine, h]

theorem exists_addLine (loading : Loading) (hnamed : (Line.ofText text).Named) :
    ∃ next, loading.addLine text = .ok next := by
  cases hline : Line.ofText text with
  | ignored => exact ⟨_, addLine_ignored hline⟩
  | root source => exact ⟨_, addLine_root hline⟩
  | definition name source =>
      rw [hline] at hnamed
      obtain ⟨c, rfl⟩ := List.length_eq_one_iff.mp hnamed
      exact ⟨_, addLine_definition hline⟩

/-- A line that is added joins the lines that have been loaded. -/
theorem loaded_of_addLine {next : Loading} {lines : List Line} {limit : Nat}
    (h : Loaded lines limit loading.definitions)
    (hline : lines[limit]? = some (Line.ofText text)) (hnext : loading.addLine text = .ok next) :
    Loaded lines (limit + 1) next.definitions ∧
      next.roots = (Line.ofText text).root?.toList ++ loading.roots := by
  unfold addLine at hnext
  split at hnext
  all_goals rename_i hfound
  all_goals rw [hfound] at hline ⊢
  · cases hnext
    exact ⟨h.skip (by simp [hline]), rfl⟩
  · cases hnext
    exact ⟨h.insert hline, rfl⟩
  · contradiction
  · cases hnext
    exact ⟨h.skip (by simp [hline]), rfl⟩

private theorem addLines_of_named (loading : Loading) (front : List (List Char))
    {back : List (List Char)}
    (h : Loaded ((front ++ back).map Line.ofText) front.length loading.definitions)
    (hroots : loading.roots.reverse = rootSources (front.map Line.ofText))
    (hnamed : ∀ text ∈ back, (Line.ofText text).Named) :
    ∃ next, loading.addLines back = .ok next ∧
      Loaded ((front ++ back).map Line.ofText) (front ++ back).length next.definitions ∧
      next.roots.reverse = rootSources ((front ++ back).map Line.ofText) := by
  induction back generalizing front loading with
  | nil =>
      rw [List.append_nil] at h ⊢
      exact ⟨loading, rfl, h, hroots⟩
  | cons text back ih =>
      obtain ⟨added, hadded⟩ := exists_addLine loading (hnamed text List.mem_cons_self)
      obtain ⟨hloaded, hadded'⟩ := loaded_of_addLine h (by simp) hadded
      rw [List.append_cons] at hloaded ⊢
      rw [addLines, hadded]
      refine ih added (front ++ [text]) (by simpa using hloaded) ?_ fun other hother =>
        hnamed other (List.mem_cons_of_mem _ hother)
      rw [hadded', List.reverse_append, hroots, List.map_append, rootSources, rootSources,
        List.filterMap_append]
      cases hroot : (Line.ofText text).root? <;> simp [hroot]

/-- The first name that does not have one character ends the loading. -/
theorem addLines_of_unnamed {front : List (List Char)} (back : List (List Char))
    {name source : List Char} (hnamed : ∀ text ∈ front, (Line.ofText text).Named)
    (htext : Line.ofText text = .definition name source) (hname : name.length ≠ 1) :
    loading.addLines (front ++ text :: back) = .error (.invalidName name) := by
  induction front generalizing loading with
  | nil => simp only [List.nil_append, addLines, addLine_unnamed htext hname]
  | cons first front ih =>
      obtain ⟨added, hadded⟩ := exists_addLine loading (hnamed first List.mem_cons_self)
      rw [List.cons_append, addLines, hadded]
      exact ih fun other hother => hnamed other (List.mem_cons_of_mem _ hother)

end Loading

/-! ## Files -/

def fileLines (text : List Char) : List Line := (Text.splitOn '\n' text).map Line.ofText

private theorem reads_fileLines (text : List Char) :
    List.Forall₂ Line.Reads (text.splitOn '\n') (fileLines text) := by
  rw [fileLines, Text.splitOn_eq, List.forall₂_map_right_iff, List.forall₂_same]
  exact fun line _ => Line.ofText_eq_iff.mp rfl

private theorem load_of_unnamed {text name source : List Char} {front back : List Line}
    (hlines : fileLines text = front ++ .definition name source :: back)
    (hnamed : ∀ line ∈ front, line.Named) (hname : name.length ≠ 1) :
    load text = .error (.invalidName name) := by
  obtain ⟨above, others, hsplit, rfl, hothers⟩ := List.map_eq_append_iff.mp hlines
  obtain ⟨line, below, rfl, hline, rfl⟩ := List.map_eq_cons_iff.mp hothers
  rw [load, hsplit, Loading.addLines_of_unnamed below ?_ hline hname]
  exact fun line hline => hnamed _ (List.mem_map_of_mem hline)

theorem load_of_named {text : List Char} (hnamed : ∀ line ∈ fileLines text, line.Named) :
    ∃ loading : Loading, load text = loading.finish ∧
      Loaded (fileLines text) (fileLines text).length loading.definitions ∧
      loading.roots.reverse = rootSources (fileLines text) := by
  obtain ⟨loading, hloading, hloaded, hroots⟩ :=
    Loading.addLines_of_named ⟨[], []⟩ [] (Loaded.nil _) rfl
      fun line hline => hnamed _ (List.mem_map_of_mem hline)
  refine ⟨loading, ?_, by simpa [fileLines] using hloaded, hroots⟩
  simp only [load, hloading]

/--
The first definition with a name of more or less than one character decides.
Otherwise it takes exactly one root, and what is loaded is the only tree of
scopes for it: the root sees the last definition of each name that it mentions,
wherever in the file it stands, and a definition sees what stands above it.
-/
theorem load_scopes (text : List Char) :
    List.Forall₂ Line.Reads (text.splitOn '\n') (fileLines text) ∧
    (∀ front name source back, fileLines text = front ++ .definition name source :: back →
      (∀ line ∈ front, line.Named) → name.length ≠ 1 →
      load text = .error (.invalidName name)) ∧
    ((∀ line ∈ fileLines text, line.Named) →
      (rootSources (fileLines text) = [] → load text = .error .missingRoot) ∧
      (1 < (rootSources (fileLines text)).length → load text = .error .severalRoots) ∧
      ∀ root, rootSources (fileLines text) = [root] →
        ∃ grammar, load text = .ok grammar ∧ grammar.source = root ∧
          ScopeTree (fileLines text) (fileLines text).length grammar ∧
          ∀ other, ScopeTree (fileLines text) (fileLines text).length other →
            other.source = root → other = grammar) := by
  refine ⟨reads_fileLines text, fun front name source back => load_of_unnamed,
    fun hnamed => ?_⟩
  obtain ⟨loading, hload, hloaded, hroots⟩ := load_of_named hnamed
  rw [hload, ← hroots]
  refine ⟨?none, ?several, ?one⟩
  case none =>
    intro hnil
    rw [Loading.finish, List.reverse_eq_nil_iff.mp hnil]
  case several =>
    intro hmany
    rw [List.length_reverse] at hmany
    match hfound : loading.roots with
    | [] | [_] => simp [hfound] at hmany
    | _ :: _ :: _ => rw [Loading.finish, hfound]
  case one =>
    intro root hone
    have htree := hloaded.scopeTree root
    refine ⟨_, ?_, rfl, htree, fun other hother hsource => hother.unique htree hsource⟩
    rw [Loading.finish, List.reverse_eq_iff.mp hone]
    rfl

/-! `C` keeps the `N` above it; the root sees the later `N`, and `V` below the root. -/

def shadowing : List Char := "N = m\nC = p/N # above\nN = n\nCNV\nV = a".toList

def shadowed : Grammar :=
  .mk ['C', 'N', 'V']
    [('C', .mk ['p', '/', 'N'] [('N', .mk ['m'] [])]), ('N', .mk ['n'] []), ('V', .mk ['a'] [])]

theorem load_shadowing :
    load shadowing = .ok shadowed ∧ ScopeTree (fileLines shadowing) 5 shadowed ∧
      load "V = a\nab = c\nV".toList = .error (.invalidName ['a', 'b']) := by
  have hlines : fileLines shadowing =
      [.definition ['N'] ['m'], .definition ['C'] ['p', '/', 'N'], .definition ['N'] ['n'],
        .root ['C', 'N', 'V'], .definition ['V'] ['a']] := by rfl
  have hnamed : ∀ line ∈ fileLines shadowing, line.Named := by simp [hlines, Line.Named]
  obtain ⟨grammar, hload, -, htree, -⟩ := ((load_scopes shadowing).2.2 hnamed).2.2
    ['C', 'N', 'V'] (by rw [hlines]; rfl)
  have hshadowed : load shadowing = .ok shadowed := by rfl
  cases hload.symm.trans hshadowed
  refine ⟨hshadowed, by simpa [hlines] using htree, ?_⟩
  exact (load_scopes _).2.1 [.definition ['V'] ['a']] ['a', 'b'] ['c'] [.root ['V']] (by rfl)
    (by simp [Line.Named]) (by decide)

end Wordmill.Grammar
