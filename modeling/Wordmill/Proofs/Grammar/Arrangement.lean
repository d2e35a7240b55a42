import Mathlib.Logic.Relation
import Wordmill.Proofs.Grammar.ScopeTree

/-!
# The arrangement of the lines

What a file says is said by its definitions, one after another, and by its
roots.  So the place of a root is of no consequence, and of two definitions next
to each other neither has to come first unless one of them mentions the other.
-/

namespace Wordmill.Grammar

/-! ## Definitions and roots apart -/

def Line.parts? : Line → Option (List Char × List Char)
  | .definition name source => some (name, source)
  | _ => none

/-- The names and the sources of the definitions, in order. -/
def definitionParts (lines : List Line) : List (List Char × List Char) :=
  lines.filterMap Line.parts?

section

variable (line : Line) (lines others : List Line)

@[simp] theorem definitionParts_cons :
    definitionParts (line :: lines) = line.parts?.toList ++ definitionParts lines := by
  cases h : line.parts? <;> simp [definitionParts, h]

@[simp] theorem definitionParts_append :
    definitionParts (lines ++ others) = definitionParts lines ++ definitionParts others :=
  List.filterMap_append

@[simp] theorem rootSources_cons :
    rootSources (line :: lines) = line.root?.toList ++ rootSources lines := by
  cases h : line.root? <;> simp [rootSources, h]

@[simp] theorem rootSources_append :
    rootSources (lines ++ others) = rootSources lines ++ rootSources others :=
  List.filterMap_append

end

/-- Enter definitions one after another. -/
def define (definitions : Dictionary Grammar) :
    List (List Char × List Char) → Except FileError (Dictionary Grammar)
  | [] => .ok definitions
  | ([name], source) :: later =>
      define (definitions.insert name (.mk source (visible source definitions))) later
  | (name, _) :: _ => .error (.invalidName name)

theorem define_unnamed (definitions : Dictionary Grammar) {name : List Char}
    (h : name.length ≠ 1) (source : List Char) (later : List (List Char × List Char)) :
    define definitions ((name, source) :: later) = .error (.invalidName name) := by
  match name with
  | [] => simp only [define]
  | [c] => contradiction
  | c :: d :: others => simp only [define]

/-- What is loaded from a file with these lines. -/
def loadLines (lines : List (List Char)) : Except FileError Grammar :=
  match (Loading.mk [] []).addLines lines with
  | .error e => .error e
  | .ok loading => loading.finish

theorem load_eq_loadLines (text : List Char) : load text = loadLines (text.splitOn '\n') := by
  rw [← Text.splitOn_eq]
  rfl

private theorem addLines_eq_define (loading : Loading) (lines : List (List Char)) :
    loading.addLines lines =
      match define loading.definitions (definitionParts (lines.map Line.ofText)) with
      | .error e => .error e
      | .ok definitions =>
          .ok ⟨definitions, (rootSources (lines.map Line.ofText)).reverse ++ loading.roots⟩ := by
  induction lines generalizing loading with
  | nil => simp [Loading.addLines, definitionParts, rootSources, define]
  | cons line lines ih =>
      simp only [Loading.addLines, List.map_cons, definitionParts_cons, rootSources_cons]
      cases hline : Line.ofText line with
      | ignored =>
          rw [Loading.addLine_ignored hline]
          simp [ih, Line.parts?, Line.root?]
      | root source =>
          rw [Loading.addLine_root hline]
          simp [ih, Line.parts?, Line.root?]
      | definition name source =>
          simp only [Line.parts?, Line.root?, Option.toList_some, Option.toList_none,
            List.singleton_append, List.nil_append]
          by_cases hname : name.length = 1
          · obtain ⟨c, rfl⟩ := List.length_eq_one_iff.mp hname
            rw [Loading.addLine_definition hline]
            simp [ih, define]
          · rw [Loading.addLine_unnamed hline hname, define_unnamed _ hname]

theorem loadLines_eq_define (lines : List (List Char)) :
    loadLines lines =
      match define [] (definitionParts (lines.map Line.ofText)) with
      | .error e => .error e
      | .ok definitions =>
          Loading.finish ⟨definitions, (rootSources (lines.map Line.ofText)).reverse⟩ := by
  rw [loadLines, addLines_eq_define]
  cases define [] (definitionParts (lines.map Line.ofText)) <;> simp

/-- In which order the roots stand makes no difference, as there may only be one. -/
theorem finish_perm (definitions : Dictionary Grammar) {roots others : List (List Char)}
    (h : roots.Perm others) :
    Loading.finish ⟨definitions, roots⟩ = Loading.finish ⟨definitions, others⟩ := by
  have hlength := h.length_eq
  match roots, others with
  | [], [] => rfl
  | [root], [other] => rw [List.singleton_perm_singleton.mp h]
  | _ :: _ :: _, _ :: _ :: _ => simp only [Loading.finish]
  | [], _ :: _ | _ :: _, [] | [_], _ :: _ :: _ | _ :: _ :: _, [_] => simp at hlength

theorem loadLines_congr {lines others : List (List Char)}
    (hdefinitions : define [] (definitionParts (lines.map Line.ofText)) =
      define [] (definitionParts (others.map Line.ofText)))
    (hroots : (rootSources (lines.map Line.ofText)).Perm
      (rootSources (others.map Line.ofText))) :
    loadLines lines = loadLines others := by
  rw [loadLines_eq_define, loadLines_eq_define, hdefinitions]
  cases define [] (definitionParts (others.map Line.ofText)) with
  | error e => simp only
  | ok definitions =>
      exact finish_perm definitions
        ((List.reverse_perm _).trans (hroots.trans (List.reverse_perm _).symm))

/-! ## Changes of place -/

theorem visible_insert {name : Char} {source : List Char} (h : name ∉ source) (grammar : Grammar)
    (definitions : Dictionary Grammar) :
    visible source (definitions.insert name grammar) = visible source definitions :=
  Dictionary.filter_insert source.contains (by simpa using h) grammar definitions

private theorem define_exchange {first second : Char} {source inner : List Char}
    (hne : first ≠ second)
    (hsource : second ∉ source) (hinner : first ∉ inner) (definitions : Dictionary Grammar)
    (front back : List (List Char × List Char)) :
    define definitions (front ++ ([first], source) :: ([second], inner) :: back) =
      define definitions (front ++ ([second], inner) :: ([first], source) :: back) := by
  induction front generalizing definitions with
  | nil =>
      simp only [List.nil_append, define, visible_insert hinner, visible_insert hsource]
      rw [Dictionary.insert_comm hne]
  | cons entry front ih =>
      obtain ⟨name, text⟩ := entry
      simp only [List.cons_append]
      by_cases hname : name.length = 1
      · obtain ⟨c, rfl⟩ := List.length_eq_one_iff.mp hname
        simp only [define]
        exact ih _
      · rw [define_unnamed _ hname, define_unnamed _ hname]

/--
A root may be taken from its place and put anywhere.  Definitions of two names
that stand next to each other may change places if neither of them mentions the
name of the other.
-/
inductive Move : List (List Char) → List (List Char) → Prop
  | root {line source : List Char} {above below before after : List (List Char)} :
      Line.ofText line = .root source → above ++ below = before ++ after →
      Move (above ++ line :: below) (before ++ line :: after)
  | exchange {first second source inner : List Char} {name other : Char}
      {above below : List (List Char)} :
      Line.ofText first = .definition [name] source →
      Line.ofText second = .definition [other] inner →
      name ≠ other → other ∉ source → name ∉ inner →
      Move (above ++ first :: second :: below) (above ++ second :: first :: below)

private theorem loadLines_of_move {lines others : List (List Char)} (h : Move lines others) :
    loadLines lines = loadLines others := by
  cases h with
  | @root line source above below before after hline heq =>
      have hmap := congrArg (List.map Line.ofText) heq
      rw [List.map_append, List.map_append] at hmap
      have hparts := congrArg definitionParts hmap
      have hroots := congrArg rootSources hmap
      rw [definitionParts_append, definitionParts_append] at hparts
      rw [rootSources_append, rootSources_append] at hroots
      apply loadLines_congr
      · simp [hline, Line.parts?, hparts]
      · simp only [List.map_append, List.map_cons, rootSources_append, rootSources_cons, hline,
          Line.root?, Option.toList_some, List.singleton_append]
        refine List.perm_middle.trans (List.Perm.trans ?_ List.perm_middle.symm)
        rw [hroots]
  | @exchange first second source inner name other above below hfirst hsecond hne hsource hinner =>
      apply loadLines_congr
      · simp only [List.map_append, List.map_cons, definitionParts_append, definitionParts_cons,
          hfirst, hsecond, Line.parts?, Option.toList_some, List.singleton_append]
        exact define_exchange hne hsource hinner _ _ _
      · simp [hfirst, hsecond, Line.root?]

private theorem loadLines_of_moves {lines others : List (List Char)}
    (h : Relation.ReflTransGen Move lines others) : loadLines lines = loadLines others := by
  induction h with
  | refl => rfl
  | tail _ hmove ih => exact ih.trans (loadLines_of_move hmove)

/-- Files whose lines are the same but for such moves are loaded alike, or fail alike. -/
theorem load_of_moves {text other : List Char}
    (h : Relation.ReflTransGen Move (text.splitOn '\n') (other.splitOn '\n')) :
    load text = load other := by
  rw [load_eq_loadLines, load_eq_loadLines, loadLines_of_moves h]

/-! The root goes to the top, and the vowels change places with the consonants. -/

def nasalLine : List Char := "N = m/n".toList

def consonantLine : List Char := "C = p/N # with N".toList

def vowelLine : List Char := "V = a".toList

def rootLine : List Char := "(C)V".toList

def rootBelow : List Char := "N = m/n\nC = p/N # with N\nV = a\n(C)V".toList

def rootAbove : List Char := "(C)V\nN = m/n\nV = a\nC = p/N # with N".toList

theorem load_rootAbove :
    Relation.ReflTransGen Move (rootBelow.splitOn '\n') (rootAbove.splitOn '\n') ∧
      load rootAbove = .ok (.mk ['(', 'C', ')', 'V']
        [('C', .mk ['p', '/', 'N'] [('N', .mk ['m', '/', 'n'] [])]), ('V', .mk ['a'] [])]) := by
  have hroot : Line.ofText rootLine = .root ['(', 'C', ')', 'V'] := by decide
  have hconsonants : Line.ofText consonantLine = .definition ['C'] ['p', '/', 'N'] := by decide
  have hvowels : Line.ofText vowelLine = .definition ['V'] ['a'] := by decide
  have hup : Move ([nasalLine, consonantLine, vowelLine] ++ rootLine :: [])
      ([] ++ rootLine :: [nasalLine, consonantLine, vowelLine]) := .root hroot rfl
  have hexchange : Move ([rootLine, nasalLine] ++ consonantLine :: vowelLine :: [])
      ([rootLine, nasalLine] ++ vowelLine :: consonantLine :: []) :=
    .exchange hconsonants hvowels (by decide) (by decide) (by decide)
  have hbelow : rootBelow.splitOn '\n' = [nasalLine, consonantLine, vowelLine, rootLine] := by
    decide
  have habove : rootAbove.splitOn '\n' = [rootLine, nasalLine, vowelLine, consonantLine] := by
    decide
  have hmoves : Relation.ReflTransGen Move (rootBelow.splitOn '\n') (rootAbove.splitOn '\n') := by
    rw [hbelow, habove]
    exact (Relation.ReflTransGen.single hup).tail hexchange
  refine ⟨hmoves, ?_⟩
  rw [← load_of_moves hmoves]
  rfl

end Wordmill.Grammar
