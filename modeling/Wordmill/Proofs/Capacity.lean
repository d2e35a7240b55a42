import Wordmill.Grammar.Load
import Wordmill.Proofs.Grammar.Cutting
import Wordmill.Proofs.Words.Room
import Wordmill.Report

/-!
# From a file to its block

All that is done for one file, with every operation checked and every buffer
measured: loading the text, making words or code of it, and writing the block.  It
ends in a panic if the list of words is over its capacity.  Nothing else can go
wrong with a text of less than `2 ^ 54` bytes, unless a buffer for what is made of
it takes more than `2 ^ 62`.
-/

namespace Wordmill

variable {σ : Type} [Draw σ]

def Grammar.write (grammar : Grammar) (options : Options) (bytecodeOnly : Bool)
    (name separator : String) (index total : Nat) (source : σ) :
    Except (Failure WordError) String × σ :=
  match grammar.produce options bytecodeOnly source with
  | (.error failure, source) => (.error failure, source)
  | (.ok product, source) => (.ok (Report.block name product separator index total), source)

/-- The block of a file, or the failure that there is instead. -/
def process (text : List Char) (options : Options) (bytecodeOnly : Bool) (name separator : String)
    (index total : Nat) (source : σ) : Except (Failure (FileError ⊕ WordError)) String × σ :=
  match Grammar.load text with
  | .error e => (.error (.error (.inl e)), source)
  | .ok grammar =>
      match grammar.write options bytecodeOnly name separator index total source with
      | (.error (.error e), source) => (.error (.error (.inr e)), source)
      | (.error .panic, source) => (.error .panic, source)
      | (.ok block, source) => (.ok block, source)

/-- A product as it is written, but for the end of the line behind words. -/
def Product.text (product : Product) (separator : String) : String :=
  match product with
  | .words made => separator.intercalate made
  | .bytecode code => listing code

namespace Checked

def produce (grammar : Grammar) (options : Options) (bytecodeOnly : Bool) (source : σ) :
    Except Panic (Except WordError Product × σ) :=
  if bytecodeOnly then do
    match ← compile grammar with
    | .error e => return (.error e, source)
    | .ok code => return (.ok (.bytecode code), source)
  else do
    match ← generate grammar options source with
    | (.error e, source) => return (.error e, source)
    | (.ok words, source) => return (.ok (.words words), source)

def render (product : Product) (separator : String) : Except Panic String :=
  match product with
  | .words made =>
      let line := separator.intercalate made
      fit (size line) (line ++ "\n")
  | .bytecode code => do
      let lines ← orPanic (sweep code 0 ∅ #[])
      let text := lines.toList.foldl
        (fun text entry => text ++ String.ofList (Listing.renderLine entry.1 entry.2)) ""
      fit (size text) text

def block (name : String) (product : Product) (separator : String) (index total : Nat) :
    Except Panic String := do
  let heading := if 1 < total then "--- " ++ name ++ "\n" else ""
  let written ← render product separator
  if 1 < total then
    let next ← orPanic (add index 1)
    return heading ++ written ++ (if next ≠ total then "\n" else "")
  else return heading ++ written ++ ""

def write (grammar : Grammar) (options : Options) (bytecodeOnly : Bool) (name separator : String)
    (index total : Nat) (source : σ) : Except Panic (Except WordError String × σ) := do
  match ← produce grammar options bytecodeOnly source with
  | (.error e, source) => return (.error e, source)
  | (.ok product, source) =>
      let block ← block name product separator index total
      return (.ok block, source)

def process (text : List Char) (options : Options) (bytecodeOnly : Bool) (name separator : String)
    (index total : Nat) (source : σ) :
    Except Panic (Except (FileError ⊕ WordError) String × σ) := do
  match ← load text with
  | .error e => return (.error (.inl e), source)
  | .ok grammar =>
      match ← write grammar options bytecodeOnly name separator index total source with
      | (.error e, source) => return (.error (.inr e), source)
      | (.ok block, source) => return (.ok block, source)

/-- The room for what is written, and for the words seen where repeats are dropped. -/
def productRoom (options : Options) (separator : String) (product : Product) : Nat :=
  match product with
  | .words made =>
      max (size (separator.intercalate made)) (if options.duplicates then 0 else 64 * made.length)
  | .bytecode code => size (listing code)

variable {index total limit peak : Nat} {grammar : Grammar} {options : Options}
  {bytecodeOnly : Bool} {separator : String} {source last : σ} {product : Product}

/-! ## Blocks -/

private theorem size_text_le (options : Options) (separator : String) (product : Product) :
    size (product.text separator) ≤ productRoom options separator product := by
  cases product with
  | words made => exact Nat.le_max_left ..
  | bytecode code => exact Nat.le_refl _

/-- Code that a listing is written of is not too long for its offsets. -/
def Addressable : Product → Prop
  | .words _ => True
  | .bytecode code => code.size ≤ maxBytes

private theorem takes_render (haddressable : Addressable product)
    (hpeak : size (product.text separator) ≤ peak) :
    Takes peak (render product separator) (.ok (product.render separator)) := by
  cases product with
  | words made => exact .fit hpeak _
  | bytecode code =>
      rw [render, sweep_eq haddressable, orPanic_ok, ok_bind]
      exact .fit hpeak _

private theorem takes_block (haddressable : Addressable product)
    (hpeak : size (product.text separator) ≤ peak) (hindex : index < total)
    (htotal : total < wordLimit) (name : String) :
    Takes peak (block name product separator index total)
      (.ok (Report.block name product separator index total)) := by
  have hnext : add index 1 = .ok (index + 1) := add_eq (by omega)
  rw [block]
  refine .bind (takes_render haddressable hpeak) ?_
  rw [Report.block]
  by_cases hmany : 1 < total
  · simp only [hmany, hnext, orPanic_ok, ok_bind, true_and, if_true]
    exact .refl ..
  · simp only [hmany, false_and, if_false]
    exact .refl ..

/-! ## Products -/

private theorem roomy_of_productRoom {words : List String}
    (h : productRoom options separator (.words words) ≤ peak) : Roomy options words peak := by
  obtain ⟨htext, hseen⟩ := Nat.max_le.mp h
  constructor
  · intro word hword
    exact Nat.le_trans (size_le_intercalate hword separator) htext
  · intro hduplicates
    simpa only [hduplicates, Bool.false_eq_true, if_false] using hseen

/-- Code that has been made with every buffer measured can be listed. -/
theorem addressable_of_produce
    (h : produce grammar options bytecodeOnly source = .ok (.ok product, last)) :
    Addressable product := by
  cases bytecodeOnly with
  | true =>
      obtain ⟨_ | code, hcode, h⟩ := exists_of_bind_eq_ok h
      · cases h
      · cases h
        exact size_of_compile hcode
  | false =>
      obtain ⟨⟨_ | words, after⟩, -, h⟩ := exists_of_bind_eq_ok h
      · cases h
      · cases h
        exact trivial

section

variable [LawfulDraw σ]

private theorem takes_produce (h : grammar.WrittenIn limit) (hlimit : 256 * (limit + 1) ≤ peak)
    (hroom : ∀ product last, grammar.produce options bytecodeOnly source = (.ok product, last) →
      productRoom options separator product ≤ peak) :
    Takes peak (produce grammar options bytecodeOnly source)
      (outcome (grammar.produce options bytecodeOnly source)) := by
  cases bytecodeOnly with
  | true =>
      rw [produce, if_pos rfl, Grammar.produce, if_pos rfl]
      refine .bind (takes_compile h hlimit) ?_
      cases grammar.compile with
      | error e => exact .refl ..
      | ok code => exact .refl ..
  | false =>
      simp only [produce, Grammar.produce, Bool.false_eq_true, if_false] at hroom ⊢
      have hroomy (words : List String) (last : σ)
          (hwords : Words.generate grammar options source = (.ok words, last)) :
          Roomy options words peak := by
        rw [hwords] at hroom
        exact roomy_of_productRoom (hroom (.words words) last rfl)
      have hgenerate := takes_generate h hlimit hroomy
      cases hplain : Words.generate grammar options source with
      | mk made last =>
          rw [hplain] at hgenerate
          rcases made with ((e | _) | words)
          · exact .bind hgenerate (.refl ..)
          · exact hgenerate.error _
          · exact .bind hgenerate (.refl ..)

private theorem takes_write (h : grammar.WrittenIn limit) (hlimit : 256 * (limit + 1) ≤ peak)
    (hroom : ∀ product last, grammar.produce options bytecodeOnly source = (.ok product, last) →
      productRoom options separator product ≤ peak) (hindex : index < total)
    (htotal : total < wordLimit) (name : String) :
    Takes peak (write grammar options bytecodeOnly name separator index total source)
      (outcome (grammar.write options bytecodeOnly name separator index total source)) := by
  have hproduce := takes_produce h hlimit hroom
  rw [write, Grammar.write]
  cases hplain : grammar.produce options bytecodeOnly source with
  | mk made last =>
      rw [hplain] at hproduce
      rcases made with ((e | _) | product)
      · exact .bind hproduce (.refl ..)
      · exact hproduce.error _
      · have htext := Nat.le_trans (size_text_le options separator product)
          (hroom product last hplain)
        rcases hproduce with hmade | ⟨hmade, hlarge⟩
        · have hblock := takes_block (addressable_of_produce hmade) htext hindex htotal name
          rw [hmade, outcome, ok_bind]
          exact .bind hblock (.refl ..)
        · exact .inr ⟨by rw [hmade]; rfl, hlarge⟩

end

/-! ## Files -/

variable {text : List Char}

theorem takes_process [LawfulDraw σ] (htext : Text.bytes text ≤ maxBytes)
    (hlimit : 256 * (Text.bytes text + 1) ≤ peak)
    (hroom : ∀ grammar product last, Grammar.load text = .ok grammar →
      grammar.produce options bytecodeOnly source = (.ok product, last) →
        productRoom options separator product ≤ peak)
    (hindex : index < total) (htotal : total < wordLimit) (name : String) :
    Takes peak (process text options bytecodeOnly name separator index total source)
      (outcome (Wordmill.process text options bytecodeOnly name separator index total source)) := by
  rw [Wordmill.process]
  refine .bind (takes_load htext (by omega)) ?_
  cases hload : Grammar.load text with
  | error e => exact .refl ..
  | ok grammar =>
      have hwrite := takes_write (Grammar.writtenIn_of_load hload) hlimit
        (fun product last => hroom grammar product last hload) hindex htotal name
      dsimp only
      cases hplain : grammar.write options bytecodeOnly name separator index total source with
      | mk made last =>
          rw [hplain] at hwrite
          rcases made with ((e | _) | block)
          · exact .bind hwrite (.refl ..)
          · exact hwrite.error _
          · exact .bind hwrite (.refl ..)

/-- As many bytes of text as are sure to be read and compiled. -/
def maxText : Nat := Nat.pow 2 54

/-- What there may be no room for: a text, or the product that is made of it. -/
inductive Large (text : List Char) (options : Options) (bytecodeOnly : Bool) (separator : String)
    (source : σ) : Prop
  | text : maxText ≤ Text.bytes text → Large text options bytecodeOnly separator source
  | product {grammar : Grammar} {product : Product} {last : σ} :
      Grammar.load text = .ok grammar →
      grammar.produce options bytecodeOnly source = (.ok product, last) →
      sureRoom < productRoom options separator product →
      Large text options bytecodeOnly separator source

/-- There is one product at most, and so a bound for the room that it takes. -/
theorem exists_peak (text : List Char) (options : Options) (bytecodeOnly : Bool)
    (separator : String) (source : σ) :
    ∃ peak, ∀ grammar product last, Grammar.load text = .ok grammar →
      grammar.produce options bytecodeOnly source = (.ok product, last) →
        productRoom options separator product ≤ peak := by
  cases hload : Grammar.load text with
  | error e => exact ⟨0, nofun⟩
  | ok grammar =>
      cases hmade : grammar.produce options bytecodeOnly source with
      | mk made last =>
          cases made with
          | error failure =>
              refine ⟨0, ?_⟩
              rintro _ _ _ ⟨⟩ hproduct
              cases hmade.symm.trans hproduct
          | ok product =>
              refine ⟨productRoom options separator product, ?_⟩
              rintro _ _ _ ⟨⟩ hproduct
              cases hmade.symm.trans hproduct
              exact Nat.le_refl _

theorem process_eq_panic_iff (text : List Char) (options : Options) (bytecodeOnly : Bool)
    (name separator : String) (index total : Nat) (source : σ) :
    (Wordmill.process text options bytecodeOnly name separator index total source).1 =
        .error .panic ↔
      ∃ grammar, Grammar.load text = .ok grammar ∧
        (grammar.produce options bytecodeOnly source).1 = .error .panic := by
  rw [Wordmill.process]
  cases hload : Grammar.load text with
  | error e => simp
  | ok grammar =>
      simp only [Grammar.write, Except.ok.injEq, exists_eq_left']
      rcases grammar.produce options bytecodeOnly source with ⟨(e | _) | product, last⟩ <;> simp

end Checked

open Checked (Large)

/--
Of a file whose text fits a buffer the checked call makes what the plain one makes: a
block, or one of the errors declared for its text and its words.  Text is cut at
boundaries only, sums fit their words and places their buffers, the source is asked
within bounds, and what the assembler takes for granted holds.

There are two exceptions.  The plain call ends in a panic exactly if the list of words
is over its capacity.  And a buffer that grows may have no room, though only if the
text is one of `2 ^ 54` bytes or more, or if more than `2 ^ 62` bytes are written or
taken by the words seen.
-/
theorem process_within_capacity [LawfulDraw σ] {text : List Char}
    (htext : Text.bytes text ≤ Checked.maxBytes) (options : Options) (bytecodeOnly : Bool)
    (name separator : String) {index total : Nat} (hindex : index < total)
    (htotal : total < Checked.wordLimit) (source : σ) :
    (Checked.process text options bytecodeOnly name separator index total source =
        Checked.outcome (process text options bytecodeOnly name separator index total source) ∨
      Checked.process text options bytecodeOnly name separator index total source =
        .error .room ∧ Large text options bytecodeOnly separator source) ∧
      ((process text options bytecodeOnly name separator index total source).1 = .error .panic ↔
        ∃ grammar, Grammar.load text = .ok grammar ∧ bytecodeOnly = false ∧
          options.syllables.Valid ∧ (∃ code, grammar.compile = .ok code) ∧
            Words.maxWords < options.words.toNat) := by
  refine ⟨?_, ?_⟩
  · by_cases hlarge : Large text options bytecodeOnly separator source
    · obtain ⟨peak, hpeak⟩ := Checked.exists_peak text options bytecodeOnly separator source
      have htakes := Checked.takes_process htext (Nat.le_add_right _ peak)
        (fun grammar product last hload hmade =>
          Nat.le_trans (hpeak grammar product last hload hmade) (Nat.le_add_left _ _))
        hindex htotal name
      exact htakes.imp_right fun hroom => ⟨hroom.1, hlarge⟩
    · have hlimit : 256 * (Text.bytes text + 1) ≤ Checked.sureRoom := by
        have hshort : ¬ Checked.maxText ≤ Text.bytes text := fun h => hlarge (.text h)
        have hsure : Checked.sureRoom = 256 * Checked.maxText := by decide
        omega
      have htakes := Checked.takes_process htext hlimit
        (fun grammar product last hload hmade =>
          Nat.not_lt.mp fun h => hlarge (.product hload hmade h)) hindex htotal name
      exact .inl (htakes.eq_of_le (Nat.le_refl _))
  · simp only [Checked.process_eq_panic_iff, Words.produce_eq_panic_iff]

/-! Two words behind a definition and in front of a comment, and more words than any list holds. -/

def umlauts : List Char := "é = ß # ü\r\nkö # é".toList

def umlautOptions : Options := ⟨2, .range 1 2, "·", true⟩

def endlessOptions : Options := ⟨384307168202282326, .fixed 1, "", false⟩

theorem produce_umlauts :
    (Grammar.mk ['k', 'ö'] []).produce umlautOptions false (Script.mk [2, 1] .low) =
      (.ok (.words ["kö·kö", "kö"]), ⟨[], .low⟩) := by
  have hfault : compileFault [] (.sequence [.text ['k', 'ö']]) = none :=
    (compileFault_nil _).trans (by rfl)
  have hwords := Words.generate_root (by rfl : Pattern.parse ['k', 'ö'] = .ok _) hfault
    (rfl : Words.checkSyllables umlautOptions.syllables = .ok ()) (by decide)
    (Script.mk [2, 1] .low)
  simp only [Grammar.produce, hwords]
  rfl

theorem process_umlauts :
    Text.bytes umlauts ≤ Checked.maxBytes ∧
      Checked.process umlauts umlautOptions false "umlauts" "/" 0 1 (Script.mk [2, 1] .low) =
        .ok (.ok "kö·kö/kö\n", ⟨[], .low⟩) ∧
      Checked.process ['a'] endlessOptions false "endless" "\n" 0 1 (Script.mk [] .low) =
        .error .capacity := by
  have htext : Text.bytes umlauts ≤ Checked.maxBytes := by decide
  obtain ⟨hmade, -⟩ := process_within_capacity htext umlautOptions false "umlauts" "/"
    (show 0 < 1 by decide) (by decide) (Script.mk [2, 1] .low)
  obtain ⟨hfull, hpanic⟩ := process_within_capacity
    (show Text.bytes ['a'] ≤ Checked.maxBytes by decide) endlessOptions false "endless" "\n"
    (show 0 < 1 by decide) (by decide) (Script.mk [] .low)
  refine ⟨htext, ?_, ?_⟩
  · have hload : Grammar.load umlauts = .ok (.mk ['k', 'ö'] []) := by rfl
    have hsmall : ¬ Large umlauts umlautOptions false "/" (Script.mk [2, 1] .low) := by
      rintro (hlong | ⟨hgrammar, hproduct, hroom⟩)
      · exact absurd hlong (by decide)
      · cases hload.symm.trans hgrammar
        cases produce_umlauts.symm.trans hproduct
        exact absurd hroom (by decide)
    rw [hmade.resolve_right fun hroom => hsmall hroom.2]
    simp only [process, hload, Grammar.write, produce_umlauts]
    rfl
  · have hload : Grammar.load ['a'] = .ok (.mk ['a'] []) := by rfl
    have hfault : compileFault [] (.sequence [.text ['a']]) = none :=
      (compileFault_nil _).trans (by rfl)
    have hcode := Grammar.compile_root (by rfl : Pattern.parse ['a'] = .ok _) hfault
    have hplain := hpanic.mpr ⟨_, hload, rfl, trivial, ⟨_, hcode⟩, by decide⟩
    have hsmall : ¬ Large ['a'] endlessOptions false "\n" (Script.mk [] .low) := by
      rintro (hlong | ⟨hgrammar, hproduct, -⟩)
      · exact absurd hlong (by decide)
      · obtain ⟨_, hsame, hnone⟩ := (Checked.process_eq_panic_iff ..).mp hplain
        cases hsame.symm.trans hgrammar
        rw [hproduct] at hnone
        cases hnone
    rw [hfull.resolve_right fun hroom => hsmall hroom.2]
    exact Checked.outcome_of_panic hplain

end Wordmill
