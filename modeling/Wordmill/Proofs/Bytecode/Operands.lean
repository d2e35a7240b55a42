import Wordmill.Proofs.Bytecode.Tiling

/-!
# Operands anywhere

Reading undoes writing wherever in a buffer the operand stands.  Conversely what
can be read at all, at any offset of any buffer, is a number as it is written, or
as many bytes as the first of them announces: the text of those bytes if they are
UTF-8, and otherwise a text with a U+FFFD in it.
-/

namespace Wordmill

open Text (Utf8.encode Utf8.decodeLossy Utf8.spanLength Utf8.replacement)

namespace Operand

variable {code : Bytecode} {offset : Nat}

/-- The bytes of a number as it is written, if it has an operand. -/
def Writes (n : Nat) (bytes : List UInt8) : Prop :=
  ∃ high low, encodeShort n = .ok (high, low) ∧ bytes = [high, low]

def span (code : Bytecode) (offset length : Nat) : List UInt8 :=
  (code.extract offset (offset + length)).toList

theorem span_eq_take (length : Nat) :
    span code offset length = (code.toList.drop offset).take length := by
  rw [span, Array.toList_extract, List.extract_eq_take_drop, Nat.add_sub_cancel_left]

/-- A span that lies within the buffer is between two others. -/
theorem exists_around {length : Nat} (h : offset + length ≤ code.size) :
    ∃ front back : List UInt8, front.length = offset ∧
      code = (front ++ (span code offset length ++ back)).toArray := by
  refine ⟨code.toList.take offset, code.toList.drop (offset + length), ?_, ?_⟩
  · rw [List.length_take, Array.length_toList]
    omega
  · rw [span_eq_take, ← List.drop_drop, List.take_append_drop, List.take_append_drop,
      Array.toArray_toList]

/-! ## Numbers -/

theorem writes_iff {n : Nat} {bytes : List UInt8} :
    Writes n bytes ↔ n ≤ 0xFFFF ∧ bytes = [(shortBytes n).1, (shortBytes n).2] := by
  unfold Writes encodeShort
  split
  · rename_i hle
    constructor
    · rintro ⟨high, low, hbytes, rfl⟩
      cases hbytes
      exact ⟨hle, rfl⟩
    · rintro ⟨-, rfl⟩
      exact ⟨_, _, rfl, rfl⟩
  · rename_i hgt
    constructor
    · rintro ⟨high, low, hbytes, -⟩
      contradiction
    · exact fun h => absurd h.1 hgt

theorem decodeShort_writes {n : Nat} {bytes : List UInt8} (h : Writes n bytes)
    (front back : List UInt8) :
    decodeShort (front ++ (bytes ++ back)).toArray front.length = some n := by
  obtain ⟨hle, rfl⟩ := writes_iff.mp h
  exact decodeShort_append front back hle

private theorem decodeShort_eq_some_iff {n : Nat} :
    decodeShort code offset = some n ↔
      offset + 2 ≤ code.size ∧ Writes n (span code offset 2) := by
  constructor
  · intro h
    obtain ⟨hle, hdrop⟩ := drop_of_decodeShort h
    have hroom := (decodeShort_lt h).2
    refine ⟨hroom, writes_iff.mpr ⟨hle, ?_⟩⟩
    rw [span_eq_take, hdrop]
    rfl
  · rintro ⟨hroom, hwrites⟩
    obtain ⟨front, back, rfl, hcode⟩ := exists_around hroom
    have hread := decodeShort_writes hwrites front back
    rwa [← hcode] at hread

/-! ## Texts -/

private theorem exists_decodeText_iff {length : Nat} :
    (∃ text, decodeText code offset = some (text, length)) ↔
      ∃ lead, code[offset]? = some lead ∧ length = Utf8.spanLength lead ∧
        offset + length ≤ code.size := by
  unfold decodeText
  cases code[offset]? with
  | none => simp
  | some lead =>
      simp only [Option.ite_none_right_eq_some, Option.some.injEq, Prod.mk.injEq,
        exists_eq_left']
      constructor
      · rintro ⟨text, hroom, -, rfl⟩
        exact ⟨rfl, hroom⟩
      · rintro ⟨rfl, hroom⟩
        exact ⟨_, hroom, rfl, rfl⟩

private theorem eq_decodeLossy_span {text : List Char} {length : Nat}
    (h : decodeText code offset = some (text, length)) :
    text = Utf8.decodeLossy (span code offset length) := by
  unfold decodeText at h
  split at h
  · contradiction
  · rw [Option.ite_none_right_eq_some, Option.some.injEq, Prod.mk.injEq] at h
    obtain ⟨-, rfl, rfl⟩ := h
    rfl

/-- A span is well formed when it is the bytes of some text. -/
def WellFormed (bytes : List UInt8) : Prop := ∃ chars, Utf8.encode chars = bytes

private theorem encode_eq_span {text : List Char} {length : Nat}
    (h : decodeText code offset = some (text, length))
    (hspan : WellFormed (span code offset length)) :
    Utf8.encode text = span code offset length := by
  obtain ⟨chars, hchars⟩ := hspan
  obtain ⟨lead, tail, htail, rfl, rfl, hdrop⟩ := drop_of_decodeText h
  have hbytes : span code offset (Utf8.spanLength lead) = lead :: tail := by
    rw [span_eq_take, hdrop, ← htail]
    exact List.take_left' List.length_cons
  -- the first byte announces the end of a character, so there is no second one
  obtain ⟨c, hc⟩ := Text.Utf8.eq_utf8EncodeChar_of_encode (hchars.trans hbytes) htail
  rw [hbytes, hc, Text.Utf8.decodeLossy_utf8EncodeChar, Utf8.encode, List.flatMap_singleton]

private theorem replacement_mem {text : List Char} {length : Nat}
    (h : decodeText code offset = some (text, length))
    (hspan : ¬ WellFormed (span code offset length)) : Utf8.replacement ∈ text := by
  rw [eq_decodeLossy_span h]
  by_contra hnone
  exact hspan ⟨_, Text.Utf8.encode_decodeLossy hnone⟩

/-! ## Texts one behind the other -/

/-- The next texts from an offset, and where the last of them ends. -/
def decodeTexts (code : Bytecode) : Nat → Nat → Option (List (List Char) × Nat)
  | 0, offset => some ([], offset)
  | n + 1, offset => do
      let (text, length) ← decodeText code offset
      let (texts, stop) ← decodeTexts code n (offset + length)
      return (text :: texts, stop)

/-- The bytes of a text are read back a character at a time. -/
theorem decodeTexts_encode (front back : List UInt8) (text : List Char) :
    decodeTexts (front ++ (Utf8.encode text ++ back)).toArray text.length front.length =
      some (text.map fun c => [c], front.length + (Utf8.encode text).length) := by
  induction text generalizing front with
  | nil => rfl
  | cons c text ih =>
      have hfirst := decodeText_append front (Utf8.encode text ++ back) c
      have hrest := ih (front ++ String.utf8EncodeChar c)
      have hlength := String.length_utf8EncodeChar c
      rw [List.append_assoc, List.length_append, hlength] at hrest
      rw [Utf8.encode, List.flatMap_cons, ← Utf8.encode, List.append_assoc, List.length_cons,
        decodeTexts, hfirst]
      simp only [Option.bind_eq_bind, Option.bind_some, hrest, List.map_cons, List.length_append,
        hlength, Nat.add_assoc]
      rfl

/-! ## Reading and writing agree -/

theorem codecs_agree (front back : List UInt8) (code : Bytecode) (offset : Nat) :
    (∀ n, (∃ bytes, Writes n bytes) ↔ n ≤ 0xFFFF) ∧
      (∀ n bytes, Writes n bytes →
        decodeShort (front ++ (bytes ++ back)).toArray front.length = some n) ∧
      (∀ n, decodeShort code offset = some n ↔
        offset + 2 ≤ code.size ∧ Writes n (span code offset 2)) ∧
      (∀ text : List Char,
        decodeTexts (front ++ (Utf8.encode text ++ back)).toArray text.length front.length =
          some (text.map fun c => [c], front.length + (Utf8.encode text).length)) ∧
      (∀ length, (∃ text, decodeText code offset = some (text, length)) ↔
        ∃ lead, code[offset]? = some lead ∧ length = Utf8.spanLength lead ∧
          offset + length ≤ code.size) ∧
      (∀ text length, decodeText code offset = some (text, length) →
        (WellFormed (span code offset length) →
          Utf8.encode text = span code offset length) ∧
        (¬ WellFormed (span code offset length) → Utf8.replacement ∈ text)) ∧
      (code.size ≤ Checked.maxBytes →
        Checked.decodeShort code offset = .ok (decodeShort code offset) ∧
          Checked.decodeText code offset = decodeText code offset) := by
  refine ⟨fun n => ⟨?_, fun hle => ⟨_, writes_iff.mpr ⟨hle, rfl⟩⟩⟩,
    fun n bytes hwrites => decodeShort_writes hwrites front back,
    fun n => decodeShort_eq_some_iff, decodeTexts_encode front back,
    fun length => exists_decodeText_iff, fun text length hread =>
    ⟨encode_eq_span hread, replacement_mem hread⟩,
    fun hsize => ⟨Checked.decodeShort_eq hsize offset, Checked.decodeText_eq hsize offset⟩⟩
  rintro ⟨bytes, hwrites⟩
  exact (writes_iff.mp hwrites).1

/-- An emoji, and a leading byte of two with no continuation behind it. -/
def mixed : Bytecode := #[0xF0, 0x9F, 0x98, 0x8E, 0xC3, 0x28]

theorem codecs_agree_mixed :
    (Writes 258 [1, 2] ∧ decodeShort #[9, 1, 2, 7] 1 = some 258) ∧
      (decodeText mixed 0 = some (['😎'], 4) ∧ WellFormed (span mixed 0 4) ∧
        Utf8.encode ['😎'] = span mixed 0 4) ∧
      (decodeText mixed 4 = some (['\uFFFD', '('], 2) ∧ ¬ WellFormed (span mixed 4 2) ∧
        Utf8.replacement ∈ ['\uFFFD', '(']) ∧
      mixed.size ≤ Checked.maxBytes ∧
      Checked.decodeShort mixed 4 = .ok (some 0xC328) := by
  have hwrites : Writes 258 [1, 2] := ⟨1, 2, rfl, rfl⟩
  have hemoji : decodeText mixed 0 = some (['😎'], 4) := by decide
  have hbroken : decodeText mixed 4 = some (['\uFFFD', '('], 2) := by decide
  have hwell : WellFormed (span mixed 0 4) := ⟨['😎'], by decide⟩
  have hsize : mixed.size ≤ Checked.maxBytes := by decide
  obtain ⟨-, hshort, -, -, -, htext, -⟩ := codecs_agree [9] [7] mixed 0
  obtain ⟨-, -, -, -, -, hmalformed, hwords⟩ := codecs_agree [9] [7] mixed 4
  -- well-formed bytes would be those of the text they decode to
  have hill : ¬ WellFormed (span mixed 4 2) := fun hspan =>
    absurd ((hmalformed _ _ hbroken).1 hspan) (by decide)
  exact ⟨⟨hwrites, hshort 258 [1, 2] hwrites⟩,
    ⟨hemoji, hwell, (htext _ _ hemoji).1 hwell⟩,
    ⟨hbroken, hill, (hmalformed _ _ hbroken).2 hill⟩, hsize, (hwords hsize).1⟩

end Operand

end Wordmill
