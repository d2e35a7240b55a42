import Wordmill.Grammar.Load
import Wordmill.Proofs.Grammar.Line
import Wordmill.Proofs.Room
import Wordmill.Proofs.Text.Offsets

/-!
# Lines cut at offsets

Loading a grammar file with its lines cut at offsets in bytes, which have been
found in them and reckoned on, and with the lists that are made of the lines
measured.  All of the offsets are boundaries, whatever the lines hold.
-/

namespace Wordmill

namespace Checked

open Grammar (Line Loading)
open Text (bytes)

/-- Text may be cut at a boundary only. -/
def cutAt (text : List Char) (offset : Nat) : Except Panic (List Char × List Char) :=
  match Text.cutAt? text offset with
  | none => .error .boundary
  | some parts => .ok parts

def definition? (line : List Char) : Except Panic (Option (List Char × List Char)) :=
  match line with
  | [] => return none
  | first :: _ => do
      let (_, others) ← cutAt line first.utf8Size
      match Text.offsetOf? '=' others with
      | none => return none
      | some found =>
          let equals ← orPanic (add first.utf8Size found)
          let start ← orPanic (add equals 1)
          let (_, defined) ← cutAt line start
          let value := defined.takeWhile (· ≠ '#')
          if value.isEmpty then return none
          else
            let (name, _) ← cutAt line equals
            return some (Text.trim name, Text.trim value)

/-- The offset of the first `#` that is not the last of all bytes. -/
def commentAt (total : Nat) : List Char → Nat → Except Panic (Option Nat)
  | [], _ => return none
  | c :: text, offset =>
      if c = '#' then do
        let next ← orPanic (add offset 1)
        if next < total then return some offset
        else commentAt total text (offset + c.utf8Size)
      else commentAt total text (offset + c.utf8Size)

def withoutComment (line : List Char) : Except Panic (List Char) := do
  match ← commentAt (bytes line) line 0 with
  | none => return line
  | some offset =>
      let (front, _) ← cutAt line offset
      return Text.trimEnd front

def lineOfText (line : List Char) : Except Panic Line :=
  match Text.trim line with
  | [] => return .ignored
  | '#' :: _ => return .ignored
  | stripped => do
      match ← definition? stripped with
      | some (name, source) => return .definition name source
      | none => return .root (← withoutComment (Grammar.withoutReturn line))

/-- What is visible is made a list first, of 56 bytes for each definition. -/
def visible (source : List Char) (definitions : Dictionary Grammar) :
    Except Panic (Dictionary Grammar) := do
  let seen := Grammar.visible source definitions
  grow (56 * seen.length)
  return seen

/-- The list of the roots takes 16 bytes for each of them. -/
def addLine (loading : Loading) (line : List Char) :
    Except Panic (Except FileError Loading) := do
  match ← lineOfText line with
  | .ignored => return .ok loading
  | .definition [name] source =>
      let grammar := Grammar.mk source (← visible source loading.definitions)
      return .ok { loading with definitions := loading.definitions.insert name grammar }
  | .definition name _ => return .error (.invalidName name)
  | .root source =>
      let roots := source :: loading.roots
      grow (16 * roots.length)
      return .ok { loading with roots := roots }

def addLines (loading : Loading) :
    List (List Char) → Except Panic (Except FileError Loading)
  | [] => return .ok loading
  | line :: lines => do
      match ← addLine loading line with
      | .error e => return .error e
      | .ok next => addLines next lines

def finish (loading : Loading) : Except Panic (Except FileError Grammar) :=
  match loading.roots with
  | [] => return .error .missingRoot
  | [root] => do return .ok (Grammar.mk root (← visible root loading.definitions))
  | _ => return .error .severalRoots

def load (text : List Char) : Except Panic (Except FileError Grammar) := do
  match ← addLines (Loading.mk [] []) (Text.splitOn '\n' text) with
  | .error e => return .error e
  | .ok loading => finish loading

/-! ## Every offset is a boundary -/

variable {line front back : List Char}

theorem cutAt_append (front back : List Char) :
    cutAt (front ++ back) (bytes front) = .ok (front, back) := by
  rw [cutAt, Text.cutAt?_append]

private theorem definition?_eq (hline : bytes line ≤ maxBytes) :
    definition? line = .ok (Grammar.definition? line) := by
  have hlimit : maxBytes < wordLimit := by decide
  cases line with
  | nil => rfl
  | cons first others =>
      have hothers := cutAt_append [first] others
      rw [Text.bytes_cons, Text.bytes_nil, Nat.add_zero, List.singleton_append] at hothers
      simp only [definition?, hothers, ok_bind]
      obtain ⟨more, defined, rfl, hmore, rfl | ⟨defined, rfl⟩⟩ := Text.exists_cut '=' others
      · rw [List.append_nil, Text.offsetOf?_of_notMem hmore, Grammar.definition?_of_notMem _ hmore]
        rfl
      · obtain ⟨value, back, rfl, hvalue, hback⟩ := Text.exists_cut '#' defined
        have hsign : Char.utf8Size '=' = 1 := rfl
        simp only [Text.bytes_cons, Text.bytes_append] at hline
        -- the name ends at a boundary, and so does the equals sign behind it
        have hname := cutAt_append (first :: more) ('=' :: (value ++ back))
        have hdefined := cutAt_append (first :: (more ++ ['='])) (value ++ back)
        simp only [Text.bytes_cons, Text.bytes_append, Text.bytes_nil, hsign, List.cons_append,
          List.append_assoc, List.nil_append] at hname hdefined
        rw [Text.offsetOf?_cut hmore, Grammar.definition?_cut first hmore hvalue hback]
        simp only [add_eq (show first.utf8Size + bytes more < wordLimit by omega),
          add_eq (show first.utf8Size + bytes more + 1 < wordLimit by omega), orPanic_ok, ok_bind,
          Nat.add_assoc, hdefined, hname, Text.takeWhile_cut hvalue hback]
        split <;> rfl

private theorem commentAt_append (hfront : '#' ∉ front) (total offset : Nat) :
    commentAt total (front ++ back) offset = commentAt total back (offset + bytes front) := by
  induction front generalizing offset with
  | nil => rfl
  | cons c front ih =>
      obtain ⟨hc, hfront⟩ := not_or.mp (List.mem_cons.not.mp hfront)
      rw [List.cons_append, commentAt, if_neg (Ne.symm hc), ih hfront, Text.bytes_cons,
        Nat.add_assoc]

private theorem withoutComment_eq (hline : bytes line ≤ maxBytes) :
    withoutComment line = .ok (Grammar.withoutComment line) := by
  have hlimit : maxBytes < wordLimit := by decide
  have hhash : Char.utf8Size '#' = 1 := rfl
  obtain ⟨front, back, rfl, hfront, hback⟩ := Text.exists_cut '#' line
  simp only [withoutComment, commentAt_append hfront, Nat.zero_add]
  rw [Grammar.withoutComment, Text.dropWhile_cut hfront hback, Text.takeWhile_cut hfront hback]
  rcases hback with rfl | ⟨comment, rfl⟩
  · rfl
  · simp only [Text.bytes_append, Text.bytes_cons, hhash] at hline ⊢
    rw [commentAt, if_pos rfl, add_eq (by omega), orPanic_ok, ok_bind]
    cases comment with
    | nil =>
        rw [if_neg (by simp)]
        rfl
    | cons c comment =>
        have hpos := c.utf8Size_pos
        rw [if_pos (by simp; omega)]
        simp only [pure, Except.pure, ok_bind, cutAt_append]

private theorem lineOfText_eq (hline : bytes line ≤ maxBytes) :
    lineOfText line = .ok (Line.ofText line) := by
  have hstripped := Nat.le_trans (Text.bytes_le_of_sublist (Text.trim_sublist line)) hline
  have hwhole := Nat.le_trans (Text.bytes_le_of_sublist (Grammar.withoutReturn_sublist line)) hline
  unfold lineOfText Line.ofText
  generalize Text.trim line = stripped at hstripped
  rcases stripped with _ | ⟨c, rest⟩
  · rfl
  · by_cases hhash : c = '#'
    · subst hhash
      rfl
    · cases hdefined : Grammar.definition? (c :: rest) <;>
        simp [hhash, hdefined, definition?_eq hstripped, withoutComment_eq hwhole, ok_bind, pure,
          Except.pure]

/-! ## Lists of lines -/

def kept (loading : Loading) : Nat := loading.definitions.length + loading.roots.length

theorem takes_visible {definitions : Dictionary Grammar} {peak : Nat}
    (hpeak : 56 * definitions.length ≤ peak) (source : List Char) :
    Takes peak (visible source definitions) (.ok (Grammar.visible source definitions)) := by
  have hlength : (Grammar.visible source definitions).length ≤ definitions.length :=
    List.length_filter_le ..
  exact .bind (.grow (by omega)) (.refl ..)

theorem kept_addLine {loading next : Loading} (h : loading.addLine line = .ok next) :
    kept next ≤ kept loading + 1 := by
  unfold Loading.addLine at h
  split at h
  · cases h
    exact Nat.le_succ _
  · rename_i name source _
    cases h
    have hinsert := Dictionary.length_insert_le name
      (.mk source (Grammar.visible source loading.definitions)) loading.definitions
    simp only [kept]
    omega
  · contradiction
  · cases h
    exact Nat.le_refl _

variable {loading : Loading} {peak : Nat}

private theorem takes_addLine (hline : bytes line ≤ maxBytes)
    (hpeak : 56 * (kept loading + 1) ≤ peak) :
    Takes peak (addLine loading line) (.ok (loading.addLine line)) := by
  rw [kept] at hpeak
  rw [addLine, Loading.addLine, lineOfText_eq hline, ok_bind]
  rcases Line.ofText line with _ | ⟨_ | ⟨name, _ | ⟨other, others⟩⟩, source⟩ | source
  · exact .refl ..
  · exact .refl ..
  · exact .bind (takes_visible (by omega) source) (.refl ..)
  · exact .refl ..
  · exact .bind (.grow (by rw [List.length_cons]; omega)) (.refl ..)

private theorem takes_addLines {lines : List (List Char)}
    (hlines : ∀ line ∈ lines, bytes line ≤ maxBytes)
    (hpeak : 56 * (kept loading + lines.length) ≤ peak) :
    Takes peak (addLines loading lines) (.ok (loading.addLines lines)) := by
  induction lines generalizing loading with
  | nil => exact .refl ..
  | cons line lines ih =>
      rw [List.length_cons] at hpeak
      refine .bind (takes_addLine (hlines line List.mem_cons_self) (by omega)) ?_
      rw [Loading.addLines]
      cases hnext : loading.addLine line with
      | error e => exact .refl ..
      | ok next =>
          have hkept := kept_addLine hnext
          exact ih (fun line hline => hlines line (List.mem_cons_of_mem _ hline)) (by omega)

private theorem kept_addLines {lines : List (List Char)} {next : Loading}
    (h : loading.addLines lines = .ok next) : kept next ≤ kept loading + lines.length := by
  induction lines generalizing loading with
  | nil =>
      cases h
      exact Nat.le_refl _
  | cons line lines ih =>
      rw [Loading.addLines] at h
      split at h
      · contradiction
      · rename_i added hadded
        have hkept := kept_addLine hadded
        have hrest := ih h
        rw [List.length_cons]
        omega

private theorem takes_finish (hpeak : 56 * kept loading ≤ peak) :
    Takes peak (finish loading) (.ok loading.finish) := by
  rw [kept] at hpeak
  unfold finish Loading.finish
  rcases loading.roots with _ | ⟨root, _ | ⟨other, others⟩⟩
  · exact .refl ..
  · exact .bind (takes_visible (by omega) root) (.refl ..)
  · exact .refl ..

/-- Loading a text that fits a buffer meets with no fault. -/
theorem takes_load {text : List Char} (htext : bytes text ≤ maxBytes)
    (hpeak : 56 * (bytes text + 1) ≤ peak) :
    Takes peak (load text) (.ok (Grammar.load text)) := by
  have hlength := Text.length_splitOn_le '\n' text
  have hlines : 56 * (kept ⟨[], []⟩ + (Text.splitOn '\n' text).length) ≤ peak := by
    simp only [kept, List.length_nil]
    omega
  refine .bind (takes_addLines (fun line hline => ?_) hlines) ?_
  · exact Nat.le_trans (Text.bytes_le_of_mem_splitOn hline) htext
  · rw [Grammar.load]
    cases hloading : (Loading.mk [] []).addLines (Text.splitOn '\n' text) with
    | error e => exact .refl ..
    | ok loading =>
        have hkept := kept_addLines hloading
        exact takes_finish (by omega)

end Checked

end Wordmill
