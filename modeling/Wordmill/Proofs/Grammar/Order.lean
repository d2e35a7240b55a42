import Mathlib.Data.List.Nodup
import Wordmill.Grammar.Load
import Wordmill.Proofs.Grammar.Gathering
import Wordmill.Proofs.Grammar.Scopes
import Wordmill.Proofs.Pattern.Soundness

/-!
# Definitions in order

If a file defines every name once, and above everything that mentions it, then
the scopes of its definitions are the ones that its code goes by.
-/

namespace Wordmill

/-! ## What a source mentions -/

namespace Pattern

mutual

theorem mem_render_of_mem_unquoted (pattern : Pattern) {c : Char} (h : c ∈ pattern.unquoted) :
    c ∈ pattern.render := by
  cases pattern with
  | sequence parts => exact mem_renderEach_of_mem_unquotedEach parts h
  | text chars => exact h
  | quoted chars => cases h
  | choice alternatives => exact mem_renderChoice_of_mem_unquotedEach alternatives h
  | optional body =>
      have hbody := mem_render_of_mem_unquoted body h
      simp [render, hbody]

theorem mem_renderEach_of_mem_unquotedEach (parts : List Pattern) {c : Char}
    (h : c ∈ unquotedEach parts) : c ∈ renderEach parts := by
  match parts with
  | [] => cases h
  | part :: parts =>
      rw [renderEach, List.mem_append]
      rcases List.mem_append.mp h with h | h
      · have hpart := mem_render_of_mem_unquoted part h
        left
        cases part <;> simp [inBrackets, hpart]
      · exact .inr (mem_renderEach_of_mem_unquotedEach parts h)

theorem mem_renderChoice_of_mem_unquotedEach (alternatives : List Pattern) {c : Char}
    (h : c ∈ unquotedEach alternatives) : c ∈ renderChoice alternatives := by
  match alternatives with
  | [] => cases h
  | [last] =>
      rcases List.mem_append.mp h with h | h
      · exact mem_render_of_mem_unquoted last h
      · cases h
  | alternative :: next :: others =>
      rw [renderChoice, List.mem_append, List.mem_cons]
      rcases List.mem_append.mp h with h | h
      · exact .inl (mem_render_of_mem_unquoted alternative h)
      · exact .inr (.inr (mem_renderChoice_of_mem_unquotedEach (next :: others) h))

end

theorem mem_unquotedEach_iff {patterns : List Pattern} {c : Char} :
    c ∈ unquotedEach patterns ↔ ∃ pattern ∈ patterns, c ∈ pattern.unquoted := by
  induction patterns with
  | nil => simp [unquotedEach]
  | cons pattern patterns ih => simp [unquotedEach, ih]

theorem isDelimiter_of_isAtom {atom : Pattern} (h : IsAtom atom) {c : Char}
    (hc : c ∈ atom.unquoted) : isDelimiter c = false := by
  cases h with
  | text _ hchars => exact hchars c hc
  | quoted _ _ => cases hc

mutual

theorem isDelimiter_of_normal {pattern : Pattern} (h : Normal pattern) {c : Char}
    (hc : c ∈ pattern.unquoted) : isDelimiter c = false := by
  cases h with
  | sequence _ hgroups _ =>
      obtain ⟨group, hgroup, hc⟩ := mem_unquotedEach_iff.mp hc
      exact isDelimiter_of_isGroup (hgroups group hgroup) hc

private theorem isDelimiter_of_isGroup {group : Pattern} (h : IsGroup group) {c : Char}
    (hc : c ∈ group.unquoted) : isDelimiter c = false := by
  cases h with
  | atom hatom => exact isDelimiter_of_isAtom hatom hc
  | choice _ hatoms =>
      obtain ⟨atom, hatom, hc⟩ := mem_unquotedEach_iff.mp hc
      exact isDelimiter_of_isAtom (hatoms atom hatom) hc
  | optional hbody => exact isDelimiter_of_normal hbody hc
  | nested hnormal => exact isDelimiter_of_normal hnormal hc

end

/-- Unquoted text is text of the source. -/
theorem mem_source_of_mem_unquoted {source : List Char} {pattern : Pattern}
    (h : parse source = .ok pattern) {c : Char} (hc : c ∈ pattern.unquoted) : c ∈ source := by
  obtain ⟨hnormal, -, hrender⟩ := sound_parse h
  have hmem := mem_render_of_mem_unquoted pattern hc
  rcases hrender with hrender | hrender
  · rwa [hrender] at hmem
  · rw [hrender] at hmem
    rcases List.mem_append.mp hmem with hmem | hmem
    · exact hmem
    · cases List.mem_singleton.mp hmem
      exact absurd (isDelimiter_of_normal hnormal hc) (by decide)

end Pattern

namespace Grammar

/-- The characters that may name definitions where `source` stands. -/
def mentioned (source : List Char) : List Char :=
  match Pattern.parse source with
  | .ok pattern => pattern.unquoted
  | .error _ => []

theorem mem_mentioned_iff {source : List Char} {c : Char} :
    c ∈ mentioned source ↔
      ∃ pattern, Pattern.parse source = .ok pattern ∧ c ∈ pattern.unquoted := by
  unfold mentioned
  cases Pattern.parse source <;> simp

theorem mem_source_of_mem_mentioned {source : List Char} {c : Char} (h : c ∈ mentioned source) :
    c ∈ source := by
  obtain ⟨pattern, hparse, hc⟩ := mem_mentioned_iff.mp h
  exact Pattern.mem_source_of_mem_unquoted hparse hc

/-! ## Grammars in which names are not ambiguous -/

def InScope (grammar scope : Grammar) : Prop :=
  scope = grammar ∨ ∃ name, Holds grammar.definitions name scope

/--
No name stands for two definitions, and what mentions a name that is defined
anywhere sees a definition of it.
-/
structure Lexical (grammar : Grammar) : Prop where
  unique {name : Char} {first second : Grammar} : Holds grammar.definitions name first →
    Holds grammar.definitions name second → first = second
  seen {scope held : Grammar} {c : Char} : InScope grammar scope → c ∈ mentioned scope.source →
    Holds grammar.definitions c held → scope.definitions.hasName c = true

theorem InScope.holds {grammar scope nested : Grammar} {name : Char} (h : InScope grammar scope)
    (hnested : (name, nested) ∈ scope.definitions) : Holds grammar.definitions name nested := by
  rcases h with rfl | ⟨other, hscope⟩
  · exact .direct hnested
  · exact hscope.trans (.direct hnested)

section

variable {grammar : Grammar} {definitions : Dictionary Pattern}

/-- A name mentioned in a scope is known there if and only if the dictionary has it. -/
theorem hasName_eq_of_lexical (h : Lexical grammar)
    (hdefinitions : grammar.patterns = .ok definitions) {scope : Grammar}
    (hscope : InScope grammar scope) {c : Char} (hc : c ∈ mentioned scope.source) :
    definitions.hasName c = scope.definitions.hasName c := by
  rw [Bool.eq_iff_iff]
  constructor
  · intro hname
    obtain ⟨held, hheld⟩ := holds_of_hasName hdefinitions hname
    exact h.seen hscope hc hheld
  · intro hname
    obtain ⟨⟨name, nested⟩, hmem, rfl⟩ := List.mem_map.mp (Dictionary.hasName_iff.mp hname)
    exact hasName_patterns hdefinitions (hscope.holds hmem)

private theorem agrees_of_lexical (h : Lexical grammar)
    (hdefinitions : grammar.patterns = .ok definitions) (callsLeft : Nat) {scope : Grammar}
    {pattern : Pattern} (hscope : InScope grammar scope)
    (hparse : Pattern.parse scope.source = .ok pattern) :
    Agrees definitions callsLeft scope pattern := by
  induction callsLeft generalizing scope pattern with
  | zero =>
      intro c hc
      have hmentioned := mem_mentioned_iff.mpr ⟨pattern, hparse, hc⟩
      exact ⟨hasName_eq_of_lexical h hdefinitions hscope hmentioned, trivial⟩
  | succ callsLeft ih =>
      intro c hc
      have hmentioned := mem_mentioned_iff.mpr ⟨pattern, hparse, hc⟩
      refine ⟨hasName_eq_of_lexical h hdefinitions hscope hmentioned, ?_⟩
      intro body nested hbody hnested
      have hholds := hscope.holds (Dictionary.mem_of_find? hnested)
      -- what the dictionary has was read from a definition of this name, and there is only one
      obtain ⟨held, hheld, hread⟩ := find?_patterns hdefinitions hbody
      cases h.unique hheld hholds
      exact ⟨hread, ih (.inr ⟨c, hholds⟩) hread⟩

end

/-! ## Files in order -/

def definitionOf (line : List Char) : Option (Char × List Char) :=
  match Line.ofText line with
  | .definition [name] source => some (name, source)
  | _ => none

/-- No definition mentions its own name or a later one, or has the name of a later one. -/
def Ordered : List (Char × List Char) → Prop
  | [] => True
  | (name, source) :: later =>
      (∀ c ∈ mentioned source, c ≠ name ∧ c ∉ later.map (·.1)) ∧
        name ∉ later.map (·.1) ∧ Ordered later

/-- Definitions that have been loaded, when definitions of the names in `later` are to come. -/
structure LoadedInOrder (later : List Char) (definitions : Dictionary Grammar) : Prop where
  nodup : (definitions.map (·.1)).Nodup
  fresh : ∀ name ∈ later, name ∉ definitions.map (·.1)
  closed : ∀ entry ∈ definitions, ∀ nested ∈ entry.2.definitions, nested ∈ definitions
  seen : ∀ entry ∈ definitions, ∀ c ∈ mentioned entry.2.source, c ∉ later ∧
    (c ∈ definitions.map (·.1) → entry.2.definitions.hasName c = true)

private theorem loadedInOrder_nil (later : List Char) : LoadedInOrder later [] where
  nodup := List.nodup_nil
  fresh := by simp
  closed := by simp
  seen := by simp

theorem mem_visible_iff {source : List Char} {definitions : Dictionary Grammar}
    {entry : Char × Grammar} :
    entry ∈ visible source definitions ↔ entry ∈ definitions ∧ entry.1 ∈ source := by
  simp [visible]

theorem hasName_visible {source : List Char} {definitions : Dictionary Grammar} {c : Char}
    (hname : c ∈ definitions.map (·.1)) (hc : c ∈ source) :
    (visible source definitions).hasName c = true := by
  obtain ⟨entry, hentry, rfl⟩ := List.mem_map.mp hname
  rw [Dictionary.hasName_iff]
  exact List.mem_map_of_mem (mem_visible_iff.mpr ⟨hentry, hc⟩)

theorem LoadedInOrder.insert {name : Char} {source : List Char} {later : List Char}
    {definitions : Dictionary Grammar} (h : LoadedInOrder (name :: later) definitions)
    (hmentioned : ∀ c ∈ mentioned source, c ≠ name ∧ c ∉ later) (hname : name ∉ later) :
    LoadedInOrder later
      (definitions.insert name (.mk source (visible source definitions))) := by
  have hfresh : name ∉ definitions.map (·.1) := h.fresh name List.mem_cons_self
  have hperm :=
    Dictionary.insert_perm (Grammar.mk source (visible source definitions)) hfresh
  have hnames : ∀ c, c ∈ (definitions.insert name
      (.mk source (visible source definitions))).map (·.1) ↔
        c = name ∨ c ∈ definitions.map (·.1) := by
    intro c
    rw [(hperm.map (·.1)).mem_iff, List.map_cons, List.mem_cons]
  constructor
  · rw [(hperm.map (·.1)).nodup_iff, List.map_cons, List.nodup_cons]
    exact ⟨hfresh, h.nodup⟩
  · intro other hother
    rw [hnames, not_or]
    refine ⟨?_, h.fresh other (List.mem_cons_of_mem _ hother)⟩
    rintro rfl
    exact hname hother
  · intro entry hentry nested hnested
    rw [hperm.mem_iff, List.mem_cons] at hentry ⊢
    right
    rcases hentry with rfl | hentry
    · exact (mem_visible_iff.mp hnested).1
    · exact h.closed entry hentry nested hnested
  · intro entry hentry c hc
    rw [hperm.mem_iff, List.mem_cons] at hentry
    rw [hnames]
    rcases hentry with rfl | hentry
    · obtain ⟨hne, hlater⟩ := hmentioned c hc
      refine ⟨hlater, ?_⟩
      rintro (heq | hmem)
      · exact absurd heq hne
      · exact hasName_visible hmem (mem_source_of_mem_mentioned hc)
    · obtain ⟨hlater, hseen⟩ := h.seen entry hentry c hc
      rw [List.mem_cons, not_or] at hlater
      refine ⟨hlater.2, ?_⟩
      rintro (heq | hmem)
      · exact absurd heq hlater.1
      · exact hseen hmem

private theorem addLine_definitions {loading next : Loading} {line : List Char}
    (h : loading.addLine line = .ok next) :
    (definitionOf line = none ∧ next.definitions = loading.definitions) ∨
      ∃ name source, definitionOf line = some (name, source) ∧
        next.definitions =
          loading.definitions.insert name (mk source (visible source loading.definitions)) := by
  unfold Loading.addLine at h
  unfold definitionOf
  split at h
  all_goals rename_i hline
  · cases h
    exact .inl ⟨by rw [hline], rfl⟩
  · cases h
    exact .inr ⟨_, _, by rw [hline], rfl⟩
  · contradiction
  · cases h
    exact .inl ⟨by rw [hline], rfl⟩

private theorem loadedInOrder_addLines {loading next : Loading} {lines : List (List Char)}
    (h : LoadedInOrder ((lines.filterMap definitionOf).map (·.1)) loading.definitions)
    (hordered : Ordered (lines.filterMap definitionOf))
    (hlines : loading.addLines lines = .ok next) : LoadedInOrder [] next.definitions := by
  induction lines generalizing loading with
  | nil =>
      cases hlines
      exact h
  | cons line lines ih =>
      rw [Loading.addLines] at hlines
      split at hlines
      · contradiction
      · rename_i added hadded
        rcases addLine_definitions hadded with ⟨hnone, hsame⟩ | ⟨name, source, hsome, hinsert⟩
        · rw [List.filterMap_cons_none hnone] at h hordered
          rw [← hsame] at h
          exact ih h hordered hlines
        · rw [List.filterMap_cons_some hsome] at h hordered
          obtain ⟨hmentioned, hname, hordered⟩ := hordered
          refine ih ?_ hordered hlines
          rw [hinsert]
          exact h.insert hmentioned hname

private theorem LoadedInOrder.mem_of_holds {definitions found : Dictionary Grammar}
    (h : LoadedInOrder [] definitions) {name : Char} {held : Grammar}
    (hheld : Holds found name held) (hfound : ∀ entry ∈ found, entry ∈ definitions) :
    (name, held) ∈ definitions := by
  induction hheld with
  | direct hmem => exact hfound _ hmem
  | nested hmem _ ih => exact ih (h.closed _ (hfound _ hmem))

private theorem LoadedInOrder.lexical {definitions : Dictionary Grammar}
    (h : LoadedInOrder [] definitions) (root : List Char) :
    Lexical (.mk root (visible root definitions)) := by
  have hmem : ∀ {name : Char} {held : Grammar},
      Holds (visible root definitions) name held → (name, held) ∈ definitions := fun hheld =>
    h.mem_of_holds hheld fun _ hentry => (mem_visible_iff.mp hentry).1
  constructor
  · intro name first second hfirst hsecond
    have hpair := List.inj_on_of_nodup_map h.nodup (hmem hfirst) (hmem hsecond) rfl
    exact (Prod.mk.inj hpair).2
  · rintro scope held c (rfl | ⟨name, hscope⟩) hc hheld
    · have hname := List.mem_map_of_mem (f := (·.1)) (hmem hheld)
      exact hasName_visible hname (mem_source_of_mem_mentioned hc)
    · have hname := List.mem_map_of_mem (f := (·.1)) (hmem hheld)
      exact (h.seen _ (hmem hscope) c hc).2 hname

/-- A file in order is loaded without any ambiguous names. -/
theorem lexical_of_load {text : List Char} {grammar : Grammar} (hload : load text = .ok grammar)
    (hordered : Ordered ((Text.splitOn '\n' text).filterMap definitionOf)) : Lexical grammar := by
  unfold load at hload
  split at hload
  · contradiction
  · rename_i loading hlines
    have hloaded := loadedInOrder_addLines (loadedInOrder_nil _) hordered hlines
    unfold Loading.finish at hload
    split at hload
    · contradiction
    · rename_i root hroot
      cases hload
      exact hloaded.lexical root
    · contradiction

private theorem coherent_of_load {text : List Char} {grammar : Grammar} {root : Pattern}
    {definitions : Dictionary Pattern} (hload : load text = .ok grammar)
    (hordered : Ordered ((Text.splitOn '\n' text).filterMap definitionOf))
    (hroot : Pattern.parse grammar.source = .ok root)
    (hdefinitions : grammar.patterns = .ok definitions) (callsLeft : Nat) :
    grammar.Coherent definitions callsLeft root := by
  rw [← agrees_iff_coherent]
  exact agrees_of_lexical (lexical_of_load hload hordered) hdefinitions callsLeft (.inl rfl) hroot

/-- The code of a file in order does what evaluation with the scopes of the file does. -/
theorem run_of_ordered {σ : Type} [Draw σ] [LawfulDraw σ] {text : List Char} {grammar : Grammar}
    {code : Bytecode} (hload : load text = .ok grammar)
    (hordered : Ordered ((Text.splitOn '\n' text).filterMap definitionOf))
    (hcode : grammar.compile = .ok code) (source : σ) :
    ∃ root, Pattern.parse grammar.source = .ok root ∧
      Machine.run code (Recorded.ofSource source) =
        ((grammar.evaluate root (Recorded.ofSource source)).latest.output,
          (grammar.evaluate root (Recorded.ofSource source)).latest.source) := by
  obtain ⟨root, definitions, hroot, hdefinitions, hcompile⟩ := compile_eq_ok hcode
  have hcoherent := coherent_of_load hload hordered hroot hdefinitions Machine.maxCalls
  have hrun := (Machine.run_eq_evaluate definitions hcompile (Recorded.ofSource source)).2
  rw [evaluate_eq_of_coherent hcoherent] at hrun
  exact ⟨root, hroot, hrun⟩

end Grammar

end Wordmill
