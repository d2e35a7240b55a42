import Wordmill.Text.Utf8

/-!
# The UTF-8 bytes of a character

Decoding gives the character back, and the leading byte announces the number of
its bytes.  Bytes that are those of no text are decoded with a U+FFFD in them.
-/

namespace Wordmill.Text.Utf8

theorem toNat_ofNat {n : Nat} (h : n < 256) : (UInt8.ofNat n).toNat = n := by
  simp [UInt8.toNat_ofNat', Nat.mod_eq_of_lt h]

theorem start_one {n : Nat} (h : n ≤ 0x7F) :
    start (UInt8.ofNat n) = ([Char.ofNat n], none) := by
  have hn := toNat_ofNat (show n < 256 by omega)
  simp [start, UInt8.le_iff_toNat_le, hn, h]

theorem start_two {n : Nat} (hlow : 0xC2 ≤ n) (hhigh : n ≤ 0xDF) :
    start (UInt8.ofNat n) = ([], some ⟨n % 32, 1, 0x80, 0xBF⟩) := by
  have hn := toNat_ofNat (show n < 256 by omega)
  simp only [start, UInt8.le_iff_toNat_le, hn]
  rw [if_neg (by simp; omega), if_neg (by simp; omega), if_pos (by simpa using hhigh)]

theorem start_three {n : Nat} (hlow : 0xE0 ≤ n) (hhigh : n ≤ 0xEF) :
    start (UInt8.ofNat n) =
      ([], some ⟨n % 16, 2, if n = 0xE0 then 0xA0 else 0x80, if n = 0xED then 0x9F else 0xBF⟩) := by
  have hn := toNat_ofNat (show n < 256 by omega)
  simp only [start, UInt8.le_iff_toNat_le, ← UInt8.toNat_inj, hn]
  rw [if_neg (by simp; omega), if_neg (by simp; omega), if_neg (by simp; omega),
    if_pos (by simpa using hhigh)]
  rfl

theorem start_four {n : Nat} (hlow : 0xF0 ≤ n) (hhigh : n ≤ 0xF4) :
    start (UInt8.ofNat n) =
      ([], some ⟨n % 8, 3, if n = 0xF0 then 0x90 else 0x80, if n = 0xF4 then 0x8F else 0xBF⟩) := by
  have hn := toNat_ofNat (show n < 256 by omega)
  simp only [start, UInt8.le_iff_toNat_le, ← UInt8.toNat_inj, hn]
  rw [if_neg (by simp; omega), if_neg (by simp; omega), if_neg (by simp; omega),
    if_neg (by simp; omega), if_pos (by simpa using hhigh)]
  rfl

/-- A continuation byte within its range carries six bits. -/
theorem feed_within {s : Begun} {n : Nat} (hlow : s.low.toNat ≤ n + 0x80)
    (hhigh : n + 0x80 ≤ s.high.toNat) (hn : n < 64) :
    feed (some s) (UInt8.ofNat (n + 0x80)) =
      if s.owed = 1 then ([Char.ofNat (s.bits * 64 + n)], none)
      else ([], some ⟨s.bits * 64 + n, s.owed - 1, 0x80, 0xBF⟩) := by
  have hbyte := toNat_ofNat (show n + 0x80 < 256 by omega)
  have hbits : (n + 0x80) % 64 = n := by omega
  simp only [feed, UInt8.le_iff_toNat_le, hbyte, hbits]
  rw [if_pos ⟨hlow, hhigh⟩]

theorem decodeLossy_cons (byte : UInt8) (bytes : List UInt8) :
    decodeLossy (byte :: bytes) = (start byte).1 ++ decodeFrom (start byte).2 bytes := rfl

theorem decodeFrom_some_cons (s : Begun) (byte : UInt8) (bytes : List UInt8) :
    decodeFrom (some s) (byte :: bytes) =
      (feed (some s) byte).1 ++ decodeFrom (feed (some s) byte).2 bytes := rfl

theorem decodeFrom_none_nil : decodeFrom none [] = [] := rfl

private theorem decodeLossy_two {v : Nat} (hlow : 0x7F < v) (hhigh : v ≤ 0x7FF) :
    decodeLossy [UInt8.ofNat (v / 64 % 32 + 0xC0), UInt8.ofNat (v % 64 + 0x80)] =
      [Char.ofNat v] := by
  rw [decodeLossy_cons, start_two (by omega) (by omega), decodeFrom_some_cons,
    feed_within (by simp) (by simp; omega) (by omega)]
  have hbits : (v / 64 % 32 + 0xC0) % 32 * 64 + v % 64 = v := by omega
  simp only [if_true, hbits, decodeFrom_none_nil, List.nil_append, List.append_nil]

private theorem decodeLossy_three {v : Nat} (hlow : 0x7FF < v) (hhigh : v ≤ 0xFFFF)
    (hvalid : v < 0xD800 ∨ 0xDFFF < v) :
    decodeLossy [UInt8.ofNat (v / 4096 % 16 + 0xE0), UInt8.ofNat (v / 64 % 64 + 0x80),
      UInt8.ofNat (v % 64 + 0x80)] = [Char.ofNat v] := by
  have hbits : ((v / 4096 % 16 + 0xE0) % 16 * 64 + v / 64 % 64) * 64 + v % 64 = v := by omega
  rw [decodeLossy_cons, start_three (by omega) (by omega), decodeFrom_some_cons, feed_within]
  · simp only [Nat.reduceEqDiff, if_false, Nat.reduceSub]
    rw [decodeFrom_some_cons, feed_within (by simp) (by simp; omega) (by omega)]
    simp only [if_true, hbits, decodeFrom_none_nil, List.nil_append, List.append_nil]
  · -- after E0 a second byte below A0 would be overlong
    simp only
    split
    · simp
      omega
    · simp
  · -- after ED a second byte above 9F would be a surrogate
    simp only
    split <;> simp <;> omega
  · omega

private theorem decodeLossy_four {v : Nat} (hlow : 0xFFFF < v) (hhigh : v < 0x110000) :
    decodeLossy [UInt8.ofNat (v / 262144 % 8 + 0xF0), UInt8.ofNat (v / 4096 % 64 + 0x80),
      UInt8.ofNat (v / 64 % 64 + 0x80), UInt8.ofNat (v % 64 + 0x80)] = [Char.ofNat v] := by
  have hbits : (((v / 262144 % 8 + 0xF0) % 8 * 64 + v / 4096 % 64) * 64 + v / 64 % 64) * 64 +
      v % 64 = v := by omega
  rw [decodeLossy_cons, start_four (by omega) (by omega), decodeFrom_some_cons, feed_within]
  · simp only [Nat.reduceEqDiff, if_false, Nat.reduceSub]
    rw [decodeFrom_some_cons, feed_within (by simp) (by simp; omega) (by omega)]
    simp only [Nat.reduceEqDiff, if_false, Nat.reduceSub]
    rw [decodeFrom_some_cons, feed_within (by simp) (by simp; omega) (by omega)]
    simp only [if_true, hbits, decodeFrom_none_nil, List.nil_append, List.append_nil]
  · -- after F0 a second byte below 90 would be overlong
    simp only
    split
    · simp
      omega
    · simp
  · -- after F4 a second byte above 8F would be past the last character
    simp only
    split <;> simp <;> omega
  · omega

theorem decodeLossy_utf8EncodeChar (c : Char) : decodeLossy (String.utf8EncodeChar c) = [c] := by
  have hvalid : c.val.toNat < 0xD800 ∨ 0xDFFF < c.val.toNat ∧ c.val.toNat < 0x110000 := c.valid
  have hc : Char.ofNat c.val.toNat = c := Char.ofNat_toNat c
  unfold String.utf8EncodeChar
  generalize c.val.toNat = v at hvalid hc
  subst hc
  simp only
  split
  · rename_i hone
    rw [decodeLossy_cons, start_one hone]
    rfl
  · split
    · exact decodeLossy_two (by omega) (by omega)
    · split
      · exact decodeLossy_three (by omega) (by omega) (by omega)
      · exact decodeLossy_four (by omega) (by omega)

theorem spanLength_pos (lead : UInt8) : 0 < spanLength lead := by
  unfold spanLength
  repeat' split
  all_goals decide

theorem spanLength_ofNat {n : Nat} (h : n < 256) :
    spanLength (UInt8.ofNat n) =
      if n ≤ 0x7F then 1 else if n ≤ 0xDF then 2 else if n ≤ 0xEF then 3 else 4 := by
  simp only [spanLength, UInt8.le_iff_toNat_le, toNat_ofNat h]
  rfl

/-- The leading byte announces the number of bytes. -/
theorem spanLength_utf8EncodeChar (c : Char) :
    ∃ lead tail, String.utf8EncodeChar c = lead :: tail ∧ spanLength lead = c.utf8Size := by
  have hvalid : c.val.toNat < 0xD800 ∨ 0xDFFF < c.val.toNat ∧ c.val.toNat < 0x110000 := c.valid
  have hlength := String.length_utf8EncodeChar c
  unfold String.utf8EncodeChar at hlength ⊢
  generalize c.val.toNat = v at hvalid hlength ⊢
  simp only at hlength ⊢
  split at hlength
  · rename_i hone
    rw [if_pos hone]
    refine ⟨_, _, rfl, ?_⟩
    rw [spanLength_ofNat (by omega), if_pos hone]
    exact hlength
  · rename_i hone
    rw [if_neg hone]
    split at hlength
    · rename_i htwo
      rw [if_pos htwo]
      refine ⟨_, _, rfl, ?_⟩
      rw [spanLength_ofNat (by omega), if_neg (by omega), if_pos (by omega)]
      exact hlength
    · rename_i htwo
      rw [if_neg htwo]
      split at hlength
      · rename_i hthree
        rw [if_pos hthree]
        refine ⟨_, _, rfl, ?_⟩
        rw [spanLength_ofNat (by omega), if_neg (by omega), if_neg (by omega), if_pos (by omega)]
        exact hlength
      · rename_i hthree
        rw [if_neg hthree]
        refine ⟨_, _, rfl, ?_⟩
        rw [spanLength_ofNat (by omega), if_neg (by omega), if_neg (by omega), if_neg (by omega)]
        exact hlength

/-- Well-formed bytes that are as many as the first of them announces are one character. -/
theorem eq_utf8EncodeChar_of_encode {chars : List Char} {lead : UInt8} {tail : List UInt8}
    (h : encode chars = lead :: tail) (hlength : tail.length + 1 = spanLength lead) :
    ∃ c, lead :: tail = String.utf8EncodeChar c := by
  cases chars with
  | nil => contradiction
  | cons c chars =>
      obtain ⟨first, others, hbytes, hspan⟩ := spanLength_utf8EncodeChar c
      have hsize := String.length_utf8EncodeChar c
      rw [encode, List.flatMap_cons, hbytes, List.cons_append, List.cons.injEq] at h
      obtain ⟨rfl, rfl⟩ := h
      rw [hbytes, List.length_cons] at hsize
      rw [List.length_append, hspan] at hlength
      have hnil : chars.flatMap String.utf8EncodeChar = [] :=
        List.eq_nil_of_length_eq_zero (by omega)
      exact ⟨c, by rw [hnil, List.append_nil, hbytes]⟩

/-! ## Malformed bytes -/

/-- The bytes complete the sequence begun and give the character. -/
inductive Begun.Completes : Begun → List UInt8 → Char → Prop
  | last {s : Begun} {byte : UInt8} (howed : s.owed = 1) (hlow : s.low ≤ byte)
      (hhigh : byte ≤ s.high) : Completes s [byte] (Char.ofNat (s.bits * 64 + byte.toNat % 64))
  | more {s : Begun} {byte : UInt8} {bytes : List UInt8} {c : Char} (howed : s.owed ≠ 1)
      (hlow : s.low ≤ byte) (hhigh : byte ≤ s.high)
      (hrest : Completes ⟨s.bits * 64 + byte.toNat % 64, s.owed - 1, 0x80, 0xBF⟩ bytes c) :
      Completes s (byte :: bytes) c

theorem Begun.completes_one {s : Begun} {bytes : List UInt8} {c : Char} (howed : s.owed = 1)
    (h : s.Completes bytes c) :
    ∃ byte, bytes = [byte] ∧ s.low ≤ byte ∧ byte ≤ s.high ∧
      c = Char.ofNat (s.bits * 64 + byte.toNat % 64) := by
  cases h with
  | last _ hlow hhigh => exact ⟨_, rfl, hlow, hhigh, rfl⟩
  | more hmore => exact absurd howed hmore

theorem Begun.completes_more {s : Begun} {bytes : List UInt8} {c : Char} (howed : s.owed ≠ 1)
    (h : s.Completes bytes c) :
    ∃ byte rest, bytes = byte :: rest ∧ s.low ≤ byte ∧ byte ≤ s.high ∧
      Completes ⟨s.bits * 64 + byte.toNat % 64, s.owed - 1, 0x80, 0xBF⟩ rest c := by
  cases h with
  | last hone => exact absurd hone howed
  | more _ hlow hhigh hrest => exact ⟨_, _, rfl, hlow, hhigh, hrest⟩

/-- Unless a replacement follows, the bytes ahead complete the sequence begun. -/
theorem exists_completes {s : Begun} {bytes : List UInt8}
    (h : replacement ∉ decodeFrom (some s) bytes) :
    ∃ own rest c, bytes = own ++ rest ∧ s.Completes own c ∧
      decodeFrom (some s) bytes = c :: decodeFrom none rest := by
  induction bytes generalizing s with
  | nil => exact absurd (List.mem_singleton.mpr rfl) h
  | cons byte bytes ih =>
      rw [decodeFrom_some_cons] at h ⊢
      by_cases hrange : s.low ≤ byte ∧ byte ≤ s.high
      · by_cases howed : s.owed = 1
        · simp only [feed, if_pos hrange, if_pos howed]
          exact ⟨[byte], bytes, _, rfl, .last howed hrange.1 hrange.2, rfl⟩
        · simp only [feed, if_pos hrange, if_neg howed, List.nil_append] at h ⊢
          obtain ⟨own, rest, c, rfl, hown, hdecode⟩ := ih h
          exact ⟨byte :: own, rest, c, rfl, .more howed hrange.1 hrange.2 hown, hdecode⟩
      · simp only [feed, if_neg hrange] at h
        exact absurd (List.mem_cons_self ..) h

theorem val_ofNat {v : Nat} (hvalid : v < 0xD800 ∨ 0xDFFF < v ∧ v < 0x110000) :
    (Char.ofNat v).val.toNat = v := by
  rw [Char.ofNat, dif_pos hvalid]
  rfl

private theorem utf8EncodeChar_ofNat_one {n : Nat} (h : n ≤ 0x7F) :
    String.utf8EncodeChar (Char.ofNat n) = [UInt8.ofNat n] := by
  unfold String.utf8EncodeChar
  rw [val_ofNat (.inl (by omega)), if_pos h]

theorem ofNat_eq {n : Nat} (byte : UInt8) (h : n = byte.toNat) : UInt8.ofNat n = byte := by
  rw [h, UInt8.ofNat_toNat]

private theorem utf8EncodeChar_two {lead b : UInt8} (hlow : 0xC2 ≤ lead.toNat)
    (hhigh : lead.toNat ≤ 0xDF) (hb : 0x80 ≤ b.toNat ∧ b.toNat ≤ 0xBF) :
    String.utf8EncodeChar (Char.ofNat (lead.toNat % 32 * 64 + b.toNat % 64)) = [lead, b] := by
  generalize hv : lead.toNat % 32 * 64 + b.toNat % 64 = v
  unfold String.utf8EncodeChar
  rw [val_ofNat (by omega), if_neg (by omega), if_pos (by omega), ofNat_eq lead, ofNat_eq b]
  all_goals omega

private theorem utf8EncodeChar_three {lead b₁ b₂ : UInt8} (hlow : 0xE0 ≤ lead.toNat)
    (hhigh : lead.toNat ≤ 0xEF) (hoverlong : lead.toNat = 0xE0 → 0xA0 ≤ b₁.toNat)
    (hsurrogate : lead.toNat = 0xED → b₁.toNat ≤ 0x9F) (hb₁ : 0x80 ≤ b₁.toNat ∧ b₁.toNat ≤ 0xBF)
    (hb₂ : 0x80 ≤ b₂.toNat ∧ b₂.toNat ≤ 0xBF) :
    String.utf8EncodeChar
        (Char.ofNat ((lead.toNat % 16 * 64 + b₁.toNat % 64) * 64 + b₂.toNat % 64)) =
      [lead, b₁, b₂] := by
  generalize hv : (lead.toNat % 16 * 64 + b₁.toNat % 64) * 64 + b₂.toNat % 64 = v
  unfold String.utf8EncodeChar
  rw [val_ofNat (by omega), if_neg (by omega), if_neg (by omega), if_pos (by omega),
    ofNat_eq lead, ofNat_eq b₁, ofNat_eq b₂]
  all_goals omega

private theorem utf8EncodeChar_four {lead b₁ b₂ b₃ : UInt8} (hlow : 0xF0 ≤ lead.toNat)
    (hhigh : lead.toNat ≤ 0xF4) (hoverlong : lead.toNat = 0xF0 → 0x90 ≤ b₁.toNat)
    (hlast : lead.toNat = 0xF4 → b₁.toNat ≤ 0x8F) (hb₁ : 0x80 ≤ b₁.toNat ∧ b₁.toNat ≤ 0xBF)
    (hb₂ : 0x80 ≤ b₂.toNat ∧ b₂.toNat ≤ 0xBF) (hb₃ : 0x80 ≤ b₃.toNat ∧ b₃.toNat ≤ 0xBF) :
    String.utf8EncodeChar (Char.ofNat
        (((lead.toNat % 8 * 64 + b₁.toNat % 64) * 64 + b₂.toNat % 64) * 64 + b₃.toNat % 64)) =
      [lead, b₁, b₂, b₃] := by
  generalize hv :
    ((lead.toNat % 8 * 64 + b₁.toNat % 64) * 64 + b₂.toNat % 64) * 64 + b₃.toNat % 64 = v
  unfold String.utf8EncodeChar
  rw [val_ofNat (by omega), if_neg (by omega), if_neg (by omega), if_neg (by omega),
    ofNat_eq lead, ofNat_eq b₁, ofNat_eq b₂, ofNat_eq b₃]
  all_goals omega

private theorem start_ill {n : Nat} (hlow : 0x7F < n) (h : n ≤ 0xC1 ∨ 0xF4 < n) (hn : n < 256) :
    start (UInt8.ofNat n) = ([replacement], none) := by
  simp only [start, UInt8.le_iff_toNat_le, toNat_ofNat hn]
  rw [if_neg (by simpa using hlow)]
  rcases h with h | h
  · rw [if_pos (by simpa using h)]
  · rw [if_neg (by simp; omega), if_neg (by simp; omega), if_neg (by simp; omega),
      if_neg (by simpa using h)]

/-- A leading byte that is neither a character nor ill begins two, three or four bytes. -/
theorem start_cases (lead : UInt8) :
    (lead.toNat ≤ 0x7F ∧ start lead = ([Char.ofNat lead.toNat], none)) ∨
      start lead = ([replacement], none) ∨
      (0xC2 ≤ lead.toNat ∧ lead.toNat ≤ 0xDF ∧
        start lead = ([], some ⟨lead.toNat % 32, 1, 0x80, 0xBF⟩)) ∨
      (0xE0 ≤ lead.toNat ∧ lead.toNat ≤ 0xEF ∧
        start lead = ([], some ⟨lead.toNat % 16, 2, if lead.toNat = 0xE0 then 0xA0 else 0x80,
          if lead.toNat = 0xED then 0x9F else 0xBF⟩)) ∨
      (0xF0 ≤ lead.toNat ∧ lead.toNat ≤ 0xF4 ∧
        start lead = ([], some ⟨lead.toNat % 8, 3, if lead.toNat = 0xF0 then 0x90 else 0x80,
          if lead.toNat = 0xF4 then 0x8F else 0xBF⟩)) := by
  have hlt := lead.toNat_lt
  obtain ⟨n, hn⟩ : ∃ n, n = lead.toNat := ⟨_, rfl⟩
  obtain rfl : UInt8.ofNat n = lead := ofNat_eq lead hn
  rw [← hn] at hlt ⊢
  by_cases hone : n ≤ 0x7F
  · exact .inl ⟨hone, start_one hone⟩
  by_cases hill : n ≤ 0xC1 ∨ 0xF4 < n
  · exact .inr (.inl (start_ill (by omega) hill hlt))
  by_cases htwo : n ≤ 0xDF
  · exact .inr (.inr (.inl ⟨by omega, htwo, start_two (by omega) htwo⟩))
  by_cases hthree : n ≤ 0xEF
  · exact .inr (.inr (.inr (.inl ⟨by omega, hthree, start_three (by omega) hthree⟩)))
  · exact .inr (.inr (.inr (.inr ⟨by omega, by omega, start_four (by omega) (by omega)⟩)))

/-- The lower bound of a first continuation byte, narrower after one leading byte. -/
theorem narrowed_low {n special : Nat} {low byte : UInt8} (hlow : 0x80 ≤ low.toNat)
    (h : (if n = special then low else 0x80) ≤ byte) :
    (n = special → low.toNat ≤ byte.toNat) ∧ 0x80 ≤ byte.toNat := by
  split at h
  · have hle := UInt8.le_iff_toNat_le.mp h
    exact ⟨fun _ => hle, by omega⟩
  · exact ⟨fun heq => absurd heq ‹_›, UInt8.le_iff_toNat_le.mp h⟩

theorem narrowed_high {n special : Nat} {high byte : UInt8} (hhigh : high.toNat ≤ 0xBF)
    (h : byte ≤ (if n = special then high else 0xBF)) :
    (n = special → byte.toNat ≤ high.toNat) ∧ byte.toNat ≤ 0xBF := by
  split at h
  · have hle := UInt8.le_iff_toNat_le.mp h
    exact ⟨fun _ => hle, by omega⟩
  · exact ⟨fun heq => absurd heq ‹_›, UInt8.le_iff_toNat_le.mp h⟩

/-- A leading byte and the bytes that complete it are the bytes of their character. -/
theorem Begun.Completes.utf8EncodeChar_eq {lead : UInt8} {chars : List Char} {s : Begun}
    {own : List UInt8} {c : Char} (hstart : start lead = (chars, some s))
    (h : s.Completes own c) : chars = [] ∧ String.utf8EncodeChar c = lead :: own := by
  rcases start_cases lead with ⟨-, hcase⟩ | hcase | ⟨hlow, hhigh, hcase⟩ | ⟨hlow, hhigh, hcase⟩ |
    ⟨hlow, hhigh, hcase⟩ <;> rw [hcase] at hstart <;> cases hstart
  · obtain ⟨b, rfl, hlow₁, hhigh₁, rfl⟩ := Begun.completes_one rfl h
    exact ⟨rfl, utf8EncodeChar_two hlow hhigh ⟨hlow₁, hhigh₁⟩⟩
  · obtain ⟨b₁, rest, rfl, hlow₁, hhigh₁, hrest⟩ := Begun.completes_more (by simp) h
    obtain ⟨b₂, rfl, hlow₂, hhigh₂, rfl⟩ := Begun.completes_one rfl hrest
    obtain ⟨hoverlong, hlow₁⟩ := narrowed_low (by decide) hlow₁
    obtain ⟨hsurrogate, hhigh₁⟩ := narrowed_high (by decide) hhigh₁
    exact ⟨rfl, utf8EncodeChar_three hlow hhigh hoverlong hsurrogate ⟨hlow₁, hhigh₁⟩
      ⟨hlow₂, hhigh₂⟩⟩
  · obtain ⟨b₁, rest, rfl, hlow₁, hhigh₁, hrest⟩ := Begun.completes_more (by simp) h
    obtain ⟨b₂, rest, rfl, hlow₂, hhigh₂, hrest⟩ := Begun.completes_more (by simp) hrest
    obtain ⟨b₃, rfl, hlow₃, hhigh₃, rfl⟩ := Begun.completes_one rfl hrest
    obtain ⟨hoverlong, hlow₁⟩ := narrowed_low (by decide) hlow₁
    obtain ⟨hlast, hhigh₁⟩ := narrowed_high (by decide) hhigh₁
    exact ⟨rfl, utf8EncodeChar_four hlow hhigh hoverlong hlast ⟨hlow₁, hhigh₁⟩
      ⟨hlow₂, hhigh₂⟩ ⟨hlow₃, hhigh₃⟩⟩

/-- Bytes that decode without a replacement begin with those of a character. -/
theorem exists_utf8EncodeChar_append {lead : UInt8} {bytes : List UInt8}
    (h : replacement ∉ decodeLossy (lead :: bytes)) :
    ∃ c rest, lead :: bytes = String.utf8EncodeChar c ++ rest ∧
      decodeLossy (lead :: bytes) = c :: decodeLossy rest := by
  rw [decodeLossy_cons] at h ⊢
  cases hstart : start lead with
  | mk chars begun =>
    rw [hstart, List.mem_append, not_or] at h
    cases begun with
    | none =>
        rcases start_cases lead with ⟨hone, hcase⟩ | hcase | ⟨-, -, hcase⟩ | ⟨-, -, hcase⟩ |
          ⟨-, -, hcase⟩ <;> rw [hcase] at hstart <;> cases hstart
        · exact ⟨_, bytes, by rw [utf8EncodeChar_ofNat_one hone, UInt8.ofNat_toNat]; rfl, rfl⟩
        · exact absurd (List.mem_singleton.mpr rfl) h.1
    | some s =>
        obtain ⟨own, rest, c, rfl, hown, hdecode⟩ := exists_completes h.2
        obtain ⟨rfl, hbytes⟩ := hown.utf8EncodeChar_eq hstart
        exact ⟨c, rest, by rw [hbytes]; rfl, hdecode⟩

/-- Bytes that decode without a replacement are those of the text they decode to. -/
theorem encode_decodeLossy {bytes : List UInt8} (h : replacement ∉ decodeLossy bytes) :
    encode (decodeLossy bytes) = bytes := by
  -- a character takes at least one byte off
  induction hlength : bytes.length using Nat.strongRecOn generalizing bytes with
  | _ n ih =>
    cases bytes with
    | nil => rfl
    | cons lead bytes =>
        obtain ⟨c, rest, hbytes, hdecode⟩ := exists_utf8EncodeChar_append h
        have hpos := Char.utf8Size_pos c
        have hsize := String.length_utf8EncodeChar c
        rw [hbytes, List.length_append] at hlength
        rw [hdecode, List.mem_cons, not_or] at h
        have hrest := ih rest.length (by omega) h.2 rfl
        rw [hdecode, encode, List.flatMap_cons, ← encode, hrest, hbytes]

end Wordmill.Text.Utf8
