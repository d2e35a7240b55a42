import Wordmill.Proofs.Json.Grammar

/-!
# The tokens of a text

What the grammar lets stand in a text comes out of the scanner as the tokens it
is meant to be.  A number is the one token whose end shows only in what follows,
so what is said of a text is said of it in front of a rest that does not go on
as a number.
-/

namespace Wordmill.Json

/-- Whatever begins the rest, `p` does not hold of it. -/
def Stops (p : Char → Bool) (rest : List Char) : Prop := ∀ c ∈ rest.head?, p c = false

theorem Stops.imp {p q : Char → Bool} {rest : List Char} (h : Stops p rest)
    (himp : ∀ c, q c → p c) : Stops q rest := by
  intro c hc
  cases hq : q c with
  | false => rfl
  | true => exact absurd (himp c hq) (by simp [h c hc])

theorem stops_cons {p : Char → Bool} {c : Char} {rest : List Char} :
    Stops p (c :: rest) ↔ p c = false := by
  simp [Stops]

private theorem Stops.takeWhile_eq_nil {p : Char → Bool} {rest : List Char} (h : Stops p rest) :
    rest.takeWhile p = [] := by
  cases rest with
  | nil => rfl
  | cons c rest => exact List.takeWhile_cons_of_neg (by simp [stops_cons.mp h])

private theorem Stops.dropWhile_eq_self {p : Char → Bool} {rest : List Char} (h : Stops p rest) :
    rest.dropWhile p = rest := by
  cases rest with
  | nil => rfl
  | cons c rest => exact List.dropWhile_cons_of_neg (by simp [stops_cons.mp h])

/-! ## Digits -/

def digitOf (c : Char) : Nat := c.toNat - '0'.toNat

theorem isDigit_eq (c : Char) : isDigit c = c.isDigit := by
  simp only [isDigit, Text.digitValue?, Char.isDigit]
  split <;> simp_all [Char.le_def]

private theorem digitValue?_of_isDigit {c : Char} (h : c.isDigit) :
    Text.digitValue? c = some (digitOf c) := by
  simp only [Char.isDigit, Bool.and_eq_true, decide_eq_true_eq] at h
  exact if_pos h

private theorem digitOf_eq_zero {c : Char} (h : c.isDigit) (hzero : digitOf c = 0) : c = '0' := by
  simp only [Char.isDigit, Bool.and_eq_true, decide_eq_true_eq] at h
  have hlow : '0'.toNat ≤ c.toNat := h.1
  unfold digitOf at hzero
  exact Char.ext (UInt32.toNat_inj.mp (by simp only [Char.toNat] at hlow hzero ⊢; omega))

private theorem filterMap_digitValue? {digits : List Char} (hdigits : AllDigits digits) :
    digits.filterMap Text.digitValue? = digits.map digitOf := by
  induction digits with
  | nil => rfl
  | cons c digits ih =>
      obtain ⟨hc, hdigits⟩ := List.forall_mem_cons.mp hdigits
      rw [List.filterMap_cons_some (digitValue?_of_isDigit hc), ih hdigits, List.map_cons]

theorem scanDigits_append {digits rest : List Char} (hdigits : AllDigits digits)
    (hrest : Stops isDigit rest) :
    scanDigits (digits ++ rest) = (digits.map digitOf, rest) := by
  have hall : ∀ c ∈ digits, isDigit c := fun c hc => (isDigit_eq c).trans (hdigits c hc)
  unfold scanDigits
  rw [List.takeWhile_append_of_pos hall, List.dropWhile_append_of_pos hall,
    hrest.takeWhile_eq_nil, hrest.dropWhile_eq_self, List.append_nil,
    filterMap_digitValue? hdigits]

/-! ## Numbers -/

/-- A number may go on with the character. -/
def continuesNumber (c : Char) : Bool := isDigit c || c == '.' || c == 'e' || c == 'E'

/-- Behind the fraction only an exponent can come. -/
def continuesExponent (c : Char) : Bool := isDigit c || c == 'e' || c == 'E'

def Delimits (rest : List Char) : Prop := Stops continuesNumber rest

theorem Delimits.stops_isDigit {rest : List Char} (h : Delimits rest) : Stops isDigit rest :=
  h.imp (by simp_all [continuesNumber])

theorem scanWhole_append {whole rest : List Char} (hwhole : IsWhole whole)
    (hrest : Stops isDigit rest) : scanWhole (whole ++ rest) = .ok (whole.map digitOf, rest) := by
  cases hwhole with
  | zero =>
      have hzero : AllDigits ['0'] := List.forall_mem_singleton.mpr rfl
      have hscan := scanDigits_append hzero hrest
      unfold scanWhole
      rw [hscan]
      rfl
  | @digits c digits hc hzero hdigits =>
      have hall : AllDigits (c :: digits) := List.forall_mem_cons.mpr ⟨hc, hdigits⟩
      have hscan := scanDigits_append hall hrest
      unfold scanWhole
      rw [hscan]
      split
      · simp_all
      · rename_i heq
        simp only [List.map_cons, Prod.mk.injEq, List.cons.injEq] at heq
        exact absurd (digitOf_eq_zero hc heq.1.1) hzero
      · rfl

private theorem scanFraction_append {fraction : List Char} (hfraction : IsFraction fraction) :
    ∃ places, ∀ rest, Stops isDigit rest → Stops (· == '.') rest →
      scanFraction (fraction ++ rest) = .ok (places, rest) := by
  cases hfraction with
  | none =>
      refine ⟨[], fun rest _ hpoint => ?_⟩
      unfold scanFraction
      split
      · simp_all [stops_cons]
      · rfl
  | @some digits hsome hdigits =>
      refine ⟨digits.map digitOf, fun rest hdigit _ => ?_⟩
      simp only [List.cons_append, scanFraction, scanDigits_append hdigits hdigit]
      split
      · simp_all
      · rfl

private theorem scanExponentDigits_append (negative : Bool) {digits : List Char}
    (hsome : digits ≠ []) (hdigits : AllDigits digits) :
    ∃ power, ∀ rest, Stops isDigit rest →
      scanExponentDigits negative (digits ++ rest) = .ok (power, rest) := by
  let value : Int := Number.digitsValue (digits.map digitOf)
  refine ⟨some (if negative then -value else value), fun rest hrest => ?_⟩
  unfold scanExponentDigits
  rw [scanDigits_append hdigits hrest]
  split
  · simp_all
  · rename_i heq
    obtain ⟨rfl, rfl⟩ := Prod.mk.inj heq
    rfl

/-- A digit is no sign, so digits right behind the mark are all of the exponent. -/
theorem scanExponent_mark {mark c : Char} {digits : List Char} (hmark : mark ∈ ['e', 'E'])
    (hc : c.isDigit) :
    scanExponent (mark :: c :: digits) = scanExponentDigits false (c :: digits) := by
  have hminus : c ≠ '-' := by rintro rfl; contradiction
  have hplus : c ≠ '+' := by rintro rfl; contradiction
  simp only [List.mem_cons, List.not_mem_nil, or_false] at hmark
  obtain rfl | rfl := hmark <;> simp [scanExponent, hminus, hplus]

theorem scanExponent_sign {mark : Char} {digits : List Char} (hmark : mark ∈ ['e', 'E']) :
    scanExponent (mark :: '+' :: digits) = scanExponentDigits false digits ∧
      scanExponent (mark :: '-' :: digits) = scanExponentDigits true digits := by
  simp only [List.mem_cons, List.not_mem_nil, or_false] at hmark
  obtain rfl | rfl := hmark <;> exact ⟨rfl, rfl⟩

private theorem scanExponent_append {exponent : List Char} (hexponent : IsExponent exponent) :
    ∃ power, ∀ rest, Stops continuesExponent rest →
      scanExponent (exponent ++ rest) = .ok (power, rest) := by
  cases hexponent with
  | none =>
      refine ⟨none, fun rest hrest => ?_⟩
      unfold scanExponent
      split
      all_goals first | rfl | simp_all [stops_cons, continuesExponent]
  | @some mark sign digits hmark hsign hsome hdigits =>
      have hdigit {rest : List Char} (hrest : Stops continuesExponent rest) : Stops isDigit rest :=
        hrest.imp (by simp_all [continuesExponent])
      obtain ⟨power, hpower⟩ := scanExponentDigits_append (sign = ['-']) hsome hdigits
      refine ⟨power, fun rest hrest => ?_⟩
      simp only [List.mem_cons, List.not_mem_nil, or_false] at hsign
      obtain rfl | rfl | rfl := hsign
      · obtain ⟨c, digits, rfl⟩ := List.exists_cons_of_ne_nil hsome
        exact (scanExponent_mark hmark (hdigits c List.mem_cons_self)).trans
          (hpower rest (hdigit hrest))
      · exact (scanExponent_sign hmark).1.trans (hpower rest (hdigit hrest))
      · exact (scanExponent_sign hmark).2.trans (hpower rest (hdigit hrest))

private theorem stops_fraction_append {fraction rest : List Char} (hfraction : IsFraction fraction)
    (hrest : Stops isDigit rest) : Stops isDigit (fraction ++ rest) := by
  cases hfraction with
  | none => exact hrest
  | some => exact stops_cons.mpr rfl

theorem stops_exponent_append {p : Char → Bool} {exponent rest : List Char}
    (hexponent : IsExponent exponent) (hrest : Stops p rest) (he : p 'e' = false)
    (hE : p 'E' = false) : Stops p (exponent ++ rest) := by
  cases hexponent with
  | none => exact hrest
  | some hmark =>
      simp only [List.mem_cons, List.not_mem_nil, or_false] at hmark
      obtain rfl | rfl := hmark
      · exact stops_cons.mpr he
      · exact stops_cons.mpr hE

theorem scanNumber_append (negative : Bool) {whole fraction exponent : List Char}
    (hwhole : IsWhole whole) (hfraction : IsFraction fraction) (hexponent : IsExponent exponent) :
    ∃ number, ∀ rest, Delimits rest →
      scanNumber negative (whole ++ fraction ++ exponent ++ rest) = (.number number, rest) := by
  obtain ⟨places, hplaces⟩ := scanFraction_append hfraction
  obtain ⟨power, hpower⟩ := scanExponent_append hexponent
  refine ⟨⟨negative, whole.map digitOf, places, power⟩, fun rest hrest => ?_⟩
  have hpoint : Stops (· == '.') (exponent ++ rest) :=
    stops_exponent_append hexponent (hrest.imp (by simp_all [continuesNumber])) rfl rfl
  have hdigit : Stops isDigit (exponent ++ rest) :=
    stops_exponent_append hexponent hrest.stops_isDigit rfl rfl
  have hmark : Stops continuesExponent rest :=
    hrest.imp (by simp only [continuesNumber, continuesExponent, Bool.or_eq_true]; grind)
  unfold scanNumber
  simp only [List.append_assoc, hplaces _ hdigit hpoint, hpower _ hmark,
    scanWhole_append hwhole (stops_fraction_append hfraction hdigit)]

/-- Without a point and an exponent the digits are all there is. -/
theorem scanNumber_whole {negative : Bool} {whole rest : List Char} (hwhole : IsWhole whole)
    (hrest : Delimits rest) :
    scanNumber negative (whole ++ rest) =
      (.number ⟨negative, whole.map digitOf, [], none⟩, rest) := by
  have hfraction : scanFraction rest = .ok ([], rest) := by
    unfold scanFraction
    split
    · simp_all [Delimits, stops_cons, continuesNumber]
    · rfl
  have hexponent : scanExponent rest = .ok (none, rest) := by
    unfold scanExponent
    split
    all_goals first | rfl | simp_all [Delimits, stops_cons, continuesNumber]
  unfold scanNumber
  simp only [scanWhole_append hwhole hrest.stops_isDigit, hfraction, hexponent]

/-! ## Strings -/

private theorem simpleEscape?_of_mem {c meant : Char} (h : (c, meant) ∈ escapes) :
    simpleEscape? c = some meant := by
  have hall : ∀ escape ∈ escapes, simpleEscape? escape.1 = some escape.2 := by decide
  exact hall _ h

theorem hexValue?_of_isHex {c : Char} {value : Nat} (h : IsHex c value) :
    Text.hexValue? c = some value := by
  have hall : ∀ value < 16, Text.hexValue? value.digitChar = some value ∧
      Text.hexValue? value.digitChar.toUpper = some value := by
    decide
  obtain ⟨hvalue, rfl | rfl⟩ := h
  · exact (hall value hvalue).1
  · exact (hall value hvalue).2

private theorem scanText_append {body rest : List Char} {pieces : List Piece}
    (h : Spells body pieces) (read : List Piece) :
    scanText read (body ++ '"' :: rest) = (.text (read.reverse ++ pieces) .complete, rest) := by
  induction h generalizing read with
  | nil => simp [scanText]
  | @char c body pieces hcontrol hquote hbackslash _ ih =>
      rw [List.cons_append, scanText.eq_def]
      simp [hcontrol, hbackslash, ih]
  | @escape c meant body pieces hescape _ ih =>
      have hmeant := simpleEscape?_of_mem hescape
      have hc : c ≠ 'u' := by rintro rfl; contradiction
      simp [scanText, hc, hmeant, ih]
  | codeUnit ha hb hc hd _ ih =>
      simp [scanText, hexUnit?, hexValue?_of_isHex ha, hexValue?_of_isHex hb,
        hexValue?_of_isHex hc, hexValue?_of_isHex hd, ih]

/-! ## Tokens -/

theorem tokensFrom_eq (read : Array Token) (text : List Char) :
    tokensFrom read text =
      match text.dropWhile isSpace with
      | [] => read
      | c :: rest => tokensFrom (read.push (scanToken c rest).1) (scanToken c rest).2 := by
  rw [tokensFrom]
  split
  · rename_i hblank
    rw [hblank]
  · rename_i hdrop
    rw [hdrop]

private theorem toList_tokensFrom (read : Array Token) (text : List Char) :
    (tokensFrom read text).toList = read.toList ++ tokens text := by
  induction hlength : text.length using Nat.strongRecOn generalizing read text with
  | ind n ih =>
      -- both sides take the same step, so the hypothesis is used for what either has read
      unfold tokens
      rw [tokensFrom_eq read, tokensFrom_eq #[]]
      split
      · simp
      · rename_i c rest hdrop
        have hsmaller : (scanToken c rest).2.length < n := by
          have := length_scanToken_le c rest
          have := length_dropWhile_le isSpace text
          rw [hdrop, List.length_cons] at this
          omega
        rw [ih _ hsmaller _ _ rfl, ih _ hsmaller _ _ rfl]
        simp

theorem tokens_eq (text : List Char) :
    tokens text =
      match text.dropWhile isSpace with
      | [] => []
      | c :: rest => (scanToken c rest).1 :: tokens (scanToken c rest).2 := by
  rw [tokens, tokensFrom_eq]
  split
  · rfl
  · rw [toList_tokensFrom]
    rfl

theorem tokens_nil : tokens [] = [] :=
  tokens_eq []

theorem tokens_cons {c : Char} {rest : List Char} (h : isSpace c = false) :
    tokens (c :: rest) = (scanToken c rest).1 :: tokens (scanToken c rest).2 := by
  rw [tokens_eq, List.dropWhile_cons_of_neg (by simp [h])]

theorem tokens_blank_append {blank : List Char} (hblank : Blank blank) (rest : List Char) :
    tokens (blank ++ rest) = tokens rest := by
  have hspace : ∀ c ∈ blank, isSpace c := by simpa [Blank, isSpace, or_assoc] using hblank
  rw [tokens_eq, List.dropWhile_append_of_pos hspace, ← tokens_eq]

private theorem scanToken_digit {c : Char} {rest : List Char} (hc : c.isDigit) :
    scanToken c rest = scanNumber false (c :: rest) := by
  unfold scanToken
  split
  all_goals first | contradiction | exact if_pos ((isDigit_eq c).trans hc)

private theorem isSpace_digit {c : Char} (hc : c.isDigit) : isSpace c = false := by
  cases hspace : isSpace c with
  | false => rfl
  | true =>
      simp only [isSpace, Bool.or_eq_true, beq_iff_eq] at hspace
      rcases hspace with ((rfl | rfl) | rfl) | rfl <;> contradiction

private theorem IsWhole.exists_digit {whole : List Char} (h : IsWhole whole) :
    ∃ c digits, whole = c :: digits ∧ c.isDigit := by
  cases h with
  | zero => exact ⟨'0', [], rfl, rfl⟩
  | digits hc => exact ⟨_, _, rfl, hc⟩

theorem tokens_whole_append {whole : List Char} (hwhole : IsWhole whole) (rest : List Char) :
    tokens (whole ++ rest) =
      (scanNumber false (whole ++ rest)).1 :: tokens (scanNumber false (whole ++ rest)).2 := by
  obtain ⟨c, digits, rfl, hc⟩ := hwhole.exists_digit
  rw [List.cons_append, tokens_cons (isSpace_digit hc), scanToken_digit hc]

/-! ## Texts in front of a rest -/

/-- The tokens of a text, wherever it stands. -/
def Scans (text : List Char) (ts : List Token) : Prop :=
  ∀ rest, Delimits rest → tokens (text ++ rest) = ts ++ tokens rest

/-- The characters that are tokens. -/
inductive Mark : Char → Token → Prop where
  | openBrace : Mark '\x7b' .openBrace
  | closeBrace : Mark '\x7d' .closeBrace
  | openBracket : Mark '[' .openBracket
  | closeBracket : Mark ']' .closeBracket
  | comma : Mark ',' .comma
  | colon : Mark ':' .colon

theorem Mark.tokens_cons {c : Char} {token : Token} (h : Mark c token) (rest : List Char) :
    tokens (c :: rest) = token :: tokens rest := by
  cases h <;> exact Json.tokens_cons rfl

private theorem Mark.delimits {c : Char} {token : Token} (h : Mark c token) (rest : List Char) :
    Delimits (c :: rest) := by
  cases h <;> exact stops_cons.mpr rfl

theorem delimits_nil : Delimits [] := by simp [Delimits, Stops]

private theorem delimits_blank_append {blank rest : List Char} (hblank : Blank blank)
    (hrest : Delimits rest) : Delimits (blank ++ rest) := by
  cases blank with
  | nil => exact hrest
  | cons c blank =>
      have hc := hblank c List.mem_cons_self
      simp only [List.mem_cons, List.not_mem_nil, or_false] at hc
      rcases hc with rfl | rfl | rfl | rfl <;> exact stops_cons.mpr rfl

theorem scans_nil : Scans [] [] :=
  fun _ _ => rfl

theorem scans_blank {blank : List Char} (hblank : Blank blank) : Scans blank [] :=
  fun rest _ => tokens_blank_append hblank rest

theorem Scans.append_blank {text blank : List Char} {ts : List Token} (h : Scans text ts)
    (hblank : Blank blank) : Scans (text ++ blank) ts := by
  intro rest hrest
  rw [List.append_assoc, h _ (delimits_blank_append hblank hrest), tokens_blank_append hblank]

theorem Scans.blank_append {text blank : List Char} {ts : List Token} (h : Scans text ts)
    (hblank : Blank blank) : Scans (blank ++ text) ts := by
  intro rest hrest
  rw [List.append_assoc, tokens_blank_append hblank, h rest hrest]

theorem Scans.cons {text : List Char} {ts : List Token} {c : Char} {token : Token}
    (hmark : Mark c token) (h : Scans text ts) : Scans (c :: text) (token :: ts) := by
  intro rest hrest
  rw [List.cons_append, hmark.tokens_cons, h rest hrest, List.cons_append]

theorem Scans.append_cons {text more : List Char} {ts moreTokens : List Token} {c : Char}
    {token : Token} (h : Scans text ts) (hmark : Mark c token) (hmore : Scans more moreTokens) :
    Scans (text ++ c :: more) (ts ++ token :: moreTokens) := by
  intro rest hrest
  have hafter : Delimits (c :: more ++ rest) := hmark.delimits (more ++ rest)
  rw [List.append_assoc, h _ hafter, Scans.cons hmark hmore rest hrest, List.append_assoc]

theorem scans_bool (value : Bool) :
    Scans (if value then "true" else "false").toList [.bool value] := by
  intro rest _
  cases value <;> exact tokens_cons rfl

theorem scans_null : Scans "null".toList [.null] :=
  fun _ _ => tokens_cons rfl

theorem scans_string {body : List Char} {pieces : List Piece} (hbody : Spells body pieces) :
    Scans ('"' :: body ++ ['"']) [.text pieces .complete] := by
  intro rest _
  have hscan : scanToken '"' (body ++ '"' :: rest) = (.text pieces .complete, rest) :=
    scanText_append hbody []
  simp only [List.cons_append, List.append_assoc, List.nil_append]
  rw [tokens_cons rfl, hscan]

theorem scans_number {text : List Char} (h : IsNumber text) :
    ∃ number, Scans text [.number number] := by
  obtain @⟨sign, whole, fraction, exponent, hsign, hwhole, hfraction, hexponent⟩ := h
  simp only [List.mem_cons, List.not_mem_nil, or_false] at hsign
  obtain rfl | rfl := hsign
  · obtain ⟨number, hnumber⟩ := scanNumber_append false hwhole hfraction hexponent
    refine ⟨number, fun rest hrest => ?_⟩
    have hscan := hnumber rest hrest
    simp only [List.append_assoc, List.nil_append] at hscan ⊢
    rw [tokens_whole_append hwhole, hscan]
    rfl
  · obtain ⟨number, hnumber⟩ := scanNumber_append true hwhole hfraction hexponent
    refine ⟨number, fun rest hrest => ?_⟩
    have hscan : scanToken '-' (whole ++ fraction ++ exponent ++ rest) = (.number number, rest) :=
      hnumber rest hrest
    simp only [List.cons_append, List.nil_append] at hscan ⊢
    rw [tokens_cons rfl, hscan]

end Wordmill.Json
