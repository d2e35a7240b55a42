import Wordmill.Options.Basic
import Wordmill.Proofs.Text.Lines
import Wordmill.Proofs.Text.Numeral
import Wordmill.Proofs.Text.Trim

/-!
# Syllables as text

The commas of a text decide its form, and what stands between them has to be
numerals that fit.  Of two parts that are no such numerals the first is the one
complained of.
-/

namespace Wordmill

namespace Text

private theorem length_splitOn (separator : Char) (text : List Char) :
    (splitOn separator text).length = text.count separator + 1 := by
  induction text with
  | nil => rfl
  | cons c text ih =>
      rw [splitOn_cons]
      by_cases hc : c = separator
      · simp [hc, ih]
      · simp [hc, ih, List.count_cons_of_ne hc]

/-- A text with any blanks around it. -/
inductive Padded (text : List Char) : List Char → Prop
  | mk {before after : List Char} : (∀ c ∈ before, isBlank c = true) →
      (∀ c ∈ after, isBlank c = true) → Padded text (before ++ text ++ after)

variable {text padded : List Char}

private theorem isBlank_eq_false_of_isDigit {c : Char} (h : c.isDigit = true) :
    isBlank c = false := by
  have hrange : 48 ≤ c.toNat ∧ c.toNat ≤ 57 := by
    simpa [Char.isDigit, UInt32.le_iff_toNat_le] using h
  simp only [isBlank, Bool.or_eq_false_iff, Bool.and_eq_false_iff, decide_eq_false_iff_not,
    beq_eq_false_iff_ne]
  omega

theorem trim_of_padded_toDigits {n : Nat} (h : Padded (Nat.toDigits 10 n) padded) :
    trim padded = Nat.toDigits 10 n := by
  obtain ⟨hbefore, hafter⟩ := h
  have hblank : ∀ c ∈ Nat.toDigits 10 n, isBlank c = false := fun c hc =>
    isBlank_eq_false_of_isDigit (Nat.isDigit_of_mem_toDigits (by decide) (by decide) hc)
  have hstart : trimStart (Nat.toDigits 10 n) = Nat.toDigits 10 n :=
    List.dropWhile_eq_self_iff.mpr fun hpos => by simp [hblank _ (List.getElem_mem hpos)]
  rw [trim_append_blank _ hafter, trim, trimStart,
    List.dropWhile_append_of_pos hbefore, ← trimStart, hstart]
  exact trimEnd_eq_self fun c hc => hblank c (List.mem_of_getLast? hc)

theorem notMem_of_padded_toDigits {n : Nat} (h : Padded (Nat.toDigits 10 n) padded) :
    ',' ∉ padded := by
  obtain ⟨hbefore, hafter⟩ := h
  simp only [List.mem_append, not_or]
  refine ⟨⟨fun hc => ?_, fun hc => ?_⟩, fun hc => ?_⟩
  · exact absurd (hbefore _ hc) (by decide)
  · exact absurd (Nat.isDigit_of_mem_toDigits (b := 10) (by decide) (by decide) hc) (by decide)
  · exact absurd (hafter _ hc) (by decide)

end Text

namespace Syllables

open Text

variable {text left right : List Char} {count : UInt32}

/-! ## One number -/

theorem readCount_eq_ok_iff : readCount text = .ok count ↔ Numeral (trim text) count.toNat := by
  have hlimit := count.toNat_lt
  unfold readCount
  constructor
  · intro h
    split at h
    · rename_i n hread
      cases h
      obtain ⟨hnumeral, hle⟩ := readNumeral_eq_ok_iff.mp hread
      rwa [UInt32.toNat_ofNat_of_lt' (Nat.lt_succ_of_le hle)]
    · contradiction
  · intro h
    rw [readNumeral_eq_ok_iff.mpr ⟨h, by omega⟩]
    simp

private theorem readCount_of_large {n : Nat} (h : Numeral (trim text) n) (hlarge : 0xFFFFFFFF < n) :
    readCount text = .error (.number .tooLarge) := by
  rw [readCount, h.readNumeral_eq, if_neg (by omega)]

/-! ## One or two -/

theorem ofText_of_notMem (h : ',' ∉ text) :
    ofText text =
      match readCount text with
      | .ok n => .ok (.fixed n)
      | .error e => .error e := by
  have hpieces : splitOn ',' text = [text] := by
    rw [splitOn_eq, List.splitOn_eq_singleton h]
  cases hcount : readCount text <;> simp [ofText, hpieces, hcount]

theorem ofText_pair (hleft : ',' ∉ left) (hright : ',' ∉ right) :
    ofText (left ++ ',' :: right) =
      match readCount left with
      | .error e => .error e
      | .ok least =>
          match readCount right with
          | .error e => .error e
          | .ok greatest => .ok (.range least greatest) := by
  have hpieces : splitOn ',' (left ++ ',' :: right) = [left, right] := by
    rw [splitOn_eq, List.splitOn_append_cons_self_of_not_mem hleft,
      List.splitOn_eq_singleton hright]
  cases hleast : readCount left <;> cases hgreatest : readCount right <;>
    simp [ofText, hpieces, hleast, hgreatest]

theorem ofText_of_many (h : 2 ≤ text.count ',') : ofText text = .error .shape := by
  have hlength := length_splitOn ',' text
  unfold ofText
  match hpieces : splitOn ',' text with
  | [] | [_] | [_, _] => simp only [hpieces, List.length_cons, List.length_nil] at hlength; omega
  | _ :: _ :: _ :: _ => rfl

/-- There is no comma, or there is one, or there are more. -/
theorem commas_cases (text : List Char) :
    ',' ∉ text ∨
      (∃ left right, text = left ++ ',' :: right ∧ ',' ∉ left ∧ ',' ∉ right) ∨
        2 ≤ text.count ',' := by
  obtain ⟨left, back, rfl, hleft, rfl | ⟨right, rfl⟩⟩ := exists_cut ',' text
  · exact .inl (by simpa using hleft)
  · right
    by_cases hright : ',' ∈ right
    · have hpos := List.count_pos_iff.mpr hright
      exact .inr (by rw [List.count_append, List.count_cons_self]; omega)
    · exact .inl ⟨left, right, rfl, hleft, hright⟩

theorem ofText_eq_fixed_iff :
    ofText text = .ok (.fixed count) ↔ ',' ∉ text ∧ Numeral (trim text) count.toNat := by
  rw [← readCount_eq_ok_iff]
  rcases commas_cases text with hnone | ⟨left, right, rfl, hleft, hright⟩ | hmany
  · rw [ofText_of_notMem hnone]
    cases readCount text <;> simp [hnone]
  · rw [ofText_pair hleft hright]
    cases readCount left <;> cases readCount right <;> simp
  · have hcomma : ',' ∈ text := List.count_pos_iff.mp (by omega)
    simp [ofText_of_many hmany, hcomma]

theorem ofText_eq_range_iff {least greatest : UInt32} :
    ofText text = .ok (.range least greatest) ↔
      ∃ left right, text = left ++ ',' :: right ∧ ',' ∉ left ∧ ',' ∉ right ∧
        Numeral (trim left) least.toNat ∧ Numeral (trim right) greatest.toNat := by
  simp only [← readCount_eq_ok_iff]
  constructor
  · intro h
    rcases commas_cases text with hnone | ⟨left, right, rfl, hleft, hright⟩ | hmany
    · rw [ofText_of_notMem hnone] at h
      split at h <;> cases h
    · rw [ofText_pair hleft hright] at h
      split at h
      · contradiction
      · rename_i hleast
        split at h
        · contradiction
        · rename_i hgreatest
          cases h
          exact ⟨left, right, rfl, hleft, hright, hleast, hgreatest⟩
    · rw [ofText_of_many hmany] at h
      contradiction
  · rintro ⟨left, right, rfl, hleft, hright, hleast, hgreatest⟩
    simp only [ofText_pair hleft hright, hleast, hgreatest]

/-- The first part that is at fault decides the error, as it does on its own. -/
theorem ofText_pair_of_error (hleft : ',' ∉ left) (hright : ',' ∉ right) :
    (∀ e, ofText left = .error e → ofText (left ++ ',' :: right) = .error e) ∧
      ∀ least e, ofText left = .ok least → ofText right = .error e →
        ofText (left ++ ',' :: right) = .error e := by
  rw [ofText_of_notMem hleft, ofText_of_notMem hright, ofText_pair hleft hright]
  cases readCount left <;> cases readCount right <;> simp

private theorem ofText_padded {least greatest : UInt32}
    (hleft : Padded (toString least).toList left)
    (hright : Padded (toString greatest).toList right) :
    ofText left = .ok (.fixed least) ∧
      ofText (left ++ ',' :: right) = .ok (.range least greatest) := by
  have hdigits (n : UInt32) : (toString n).toList = Nat.toDigits 10 n.toNat := Nat.toList_repr
  rw [hdigits] at hleft hright
  have hleast : Numeral (trim left) least.toNat := by
    rw [trim_of_padded_toDigits hleft]
    exact numeral_toDigits _
  have hgreatest : Numeral (trim right) greatest.toNat := by
    rw [trim_of_padded_toDigits hright]
    exact numeral_toDigits _
  have hcommaLeft := notMem_of_padded_toDigits hleft
  have hcommaRight := notMem_of_padded_toDigits hright
  exact ⟨ofText_eq_fixed_iff.mpr ⟨hcommaLeft, hleast⟩, ofText_eq_range_iff.mpr
    ⟨left, right, rfl, hcommaLeft, hcommaRight, hleast, hgreatest⟩⟩

/--
A text without a comma is read if it is a numeral that fits, one with a comma if
both of its parts are, each with any blanks around it, and no other text is read.
A numeral that does not fit is too large.  The left part is complained of before
the right one, and the commas before either.  Numbers that are written out are
read back.
-/
theorem ofText_exactly :
    (∀ text count, ofText text = .ok (.fixed count) ↔
      ',' ∉ text ∧ Numeral (trim text) count.toNat) ∧
    (∀ text least greatest, ofText text = .ok (.range least greatest) ↔
      ∃ left right, text = left ++ ',' :: right ∧ ',' ∉ left ∧ ',' ∉ right ∧
        Numeral (trim left) least.toNat ∧ Numeral (trim right) greatest.toNat) ∧
    (∀ text n, ',' ∉ text → Numeral (trim text) n → 0xFFFFFFFF < n →
      ofText text = .error (.number .tooLarge)) ∧
    (∀ left right, ',' ∉ left → ',' ∉ right →
      (∀ e, ofText left = .error e → ofText (left ++ ',' :: right) = .error e) ∧
      ∀ least e, ofText left = .ok least → ofText right = .error e →
        ofText (left ++ ',' :: right) = .error e) ∧
    (∀ text, 2 ≤ text.count ',' → ofText text = .error .shape) ∧
    ∀ (least greatest : UInt32) left right, Padded (toString least).toList left →
      Padded (toString greatest).toList right →
      ofText left = .ok (.fixed least) ∧
        ofText (left ++ ',' :: right) = .ok (.range least greatest) := by
  refine ⟨fun _ _ => ofText_eq_fixed_iff, fun _ _ _ => ofText_eq_range_iff, ?_,
    fun _ _ => ofText_pair_of_error, fun _ => ofText_of_many, fun _ _ _ _ => ofText_padded⟩
  intro text n hcomma hnumeral hlarge
  rw [ofText_of_notMem hcomma, readCount_of_large hnumeral hlarge]

/-- Zeros and a sign, a value just above the limit, and blanks that are no plain space. -/
theorem ofText_written :
    ofText " +0007".toList = .ok (.fixed 7) ∧
      ofText "004294967296".toList = .error (.number .tooLarge) ∧
      ofText "4294967296,x".toList = .error (.number .tooLarge) ∧
      ofText "1,,".toList = .error .shape ∧
      ofText "\u3000 12\t,\u00a03\n".toList = .ok (.range 12 3) := by
  obtain ⟨hfixed, -, hlarge, herror, hmany, hwritten⟩ := ofText_exactly
  have hseven : Numeral (trim " +0007".toList) (7 : UInt32).toNat :=
    @Numeral.signed ['0', '0', '0', '7'] (by decide) (List.all_eq_true.mp rfl)
  have hzeros : Numeral (trim "004294967296".toList) 4294967296 :=
    @Numeral.plain "004294967296".toList (by decide) (List.all_eq_true.mp rfl)
  have hvalue : Numeral (trim "4294967296".toList) 4294967296 :=
    @Numeral.plain "4294967296".toList (by decide) (List.all_eq_true.mp rfl)
  have hfirst := hlarge "4294967296".toList _ (by decide) hvalue (by decide)
  have htwelve : Padded "12".toList "\u3000 12\t".toList :=
    @Padded.mk _ ['\u3000', ' '] ['\t'] (List.all_eq_true.mp rfl) (List.all_eq_true.mp rfl)
  have hthree : Padded "3".toList "\u00a03\n".toList :=
    @Padded.mk _ ['\u00a0'] ['\n'] (List.all_eq_true.mp rfl) (List.all_eq_true.mp rfl)
  exact ⟨(hfixed _ 7).mpr ⟨by decide, hseven⟩, hlarge _ _ (by decide) hzeros (by decide),
    (herror _ ['x'] (by decide) (by decide)).1 _ hfirst, hmany _ (by decide),
    (hwritten 12 3 _ _ htwelve hthree).2⟩

end Syllables

end Wordmill
