import Wordmill.Json.Library
import Wordmill.Proofs.Bytecode.ListingText
import Wordmill.Proofs.Words.Drafts
import Wordmill.Proofs.Words.Session
import Wordmill.Run

/-!
# What a run writes

The files share one source, so what a file makes depends on the files before it,
but what has been written does not depend on the files to come: a failure leaves
whole blocks behind, and nothing of the file that failed.  The failure is an error
about this file, or it is the panic of a list of words that cannot be that long.
-/

namespace Wordmill

/-- The files that an error is about. -/
def RunError.paths {ε : Type} : RunError ε → List String
  | .missing paths => paths
  | .reading path => [path]
  | .config path _ => [path]
  | .loading path _ => [path]
  | .making path _ => [path]

namespace Report

/-- A block without the empty line that sets it off from the next one. -/
def headed (name : String) (product : Product) (separator : String) (total : Nat) : String :=
  (if 1 < total then "--- " ++ name ++ "\n" else "") ++ product.render separator

variable {index total : Nat}

private theorem block_of_last (name : String) (product : Product) (separator : String)
    (h : index + 1 = total) :
    block name product separator index total = headed name product separator total := by
  simp [block, headed, h]

theorem block_of_lt (name : String) (product : Product) (separator : String)
    (h : index + 1 < total) :
    block name product separator index total = headed name product separator total ++ "\n" := by
  have hgap : 1 < total ∧ index + 1 ≠ total := ⟨by omega, by omega⟩
  rw [block, if_pos hgap, headed]

private theorem render_ends (product : Product) (separator : String) :
    product.render separator = "" ∨ ∃ text, product.render separator = text ++ "\n" := by
  cases product with
  | words made => exact .inr ⟨_, rfl⟩
  | bytecode code =>
      rcases List.eq_nil_or_concat (Listing.lines code) with hlines | ⟨front, last, hlines⟩
      · refine .inl (String.toList_injective ?_)
        simp [Product.render, Listing.toList_listing, hlines, Text.joinLines]
      · refine .inr ⟨String.ofList
          (Text.joinLines (front.map Listing.lineText) ++ Listing.lineText last), ?_⟩
        apply String.toList_injective
        simp [Product.render, Listing.toList_listing, hlines, Text.joinLines]

/-- Below its heading a block is made of whole lines. -/
theorem headed_ends (name : String) (product : Product) (separator : String) (h : 1 < total) :
    ∃ text, headed name product separator total = text ++ "\n" := by
  rw [headed, if_pos h]
  rcases render_ends product separator with hrender | ⟨text, hrender⟩
  · exact ⟨"--- " ++ name, by rw [hrender, String.append_empty]⟩
  · exact ⟨"--- " ++ name ++ "\n" ++ text, by simp only [hrender, String.append_assoc]⟩

end Report

namespace Run

variable {σ : Type} [Draw σ] (ε : Type) (find : String → Entry) (arguments : Arguments)
  (options : Options)

/-- What files make one after another, each with the source as the ones before have left it. -/
inductive Makes : List String → σ → List Product → σ → Prop
  | nil (source : σ) : Makes [] source [] source
  | cons {file : String} {files : List String} {made : Product} {products : List Product}
      {source next last : σ} :
      product find arguments.bytecode options file source =
        ((.ok made : Except (Failure (RunError ε)) Product), next) →
      Makes files next products last → Makes (file :: files) source (made :: products) last

/-- Each product under the name of its file if there is more than one. -/
def written (files : List String) (products : List Product) : List String :=
  List.zipWith
    (fun file made => Report.headed file made arguments.betweenWords arguments.files.length)
    files products

variable {ε find arguments options} {files front back : List String} {products : List Product}
  {source between last : σ}

private theorem product_error_paths {file : String} {error : RunError ε} {bytecodeOnly : Bool}
    (h : product find bytecodeOnly options file source = (.error (.error error), last)) :
    error.paths = [file] := by
  unfold product grammar at h
  split at h
  · rename_i cause hgrammar
    cases h
    split at hgrammar
    · cases hgrammar
      rfl
    · split at hgrammar <;> cases hgrammar
      rfl
  · split at h <;> cases h
    rfl

theorem product_panic_iff (ε : Type) (find : String → Entry) (options : Options) (file : String)
    (bytecodeOnly : Bool) (source : σ) :
    (product find bytecodeOnly options file source).1 =
        (.error .panic : Except (Failure (RunError ε)) Product) ↔
      bytecodeOnly = false ∧ options.syllables.Valid ∧
        (∃ loaded, grammar find file = (.ok loaded : Except (RunError ε) Grammar) ∧
          ∃ code, loaded.compile = .ok code) ∧
        Words.maxWords < options.words.toNat := by
  unfold product
  cases hgrammar : (grammar find file : Except (RunError ε) Grammar) with
  | error error => simp
  | ok loaded =>
      have hpanic := Words.produce_eq_panic_iff loaded options bytecodeOnly source
      simp only [Except.ok.injEq, exists_eq_left']
      rw [← hpanic]
      cases loaded.produce options bytecodeOnly source with
      | mk result next => rcases result with (_ | _) | _ <;> simp

/-- A file that fails has asked the source for nothing. -/
theorem product_source {file : String} {failure : Failure (RunError ε)} {bytecodeOnly : Bool}
    (h : product find bytecodeOnly options file source = (.error failure, last)) :
    last = source := by
  unfold product at h
  cases hgrammar : (grammar find file : Except (RunError ε) Grammar) with
  | error error =>
      simp only [hgrammar, Prod.mk.injEq] at h
      exact h.2.symm
  | ok loaded =>
      simp only [hgrammar] at h
      cases hproduce : loaded.produce options bytecodeOnly source with
      | mk result next =>
          cases result with
          | error found =>
              have hsource := Grammar.produce_of_error (congrArg Prod.fst hproduce) source
              rw [hproduce, Prod.mk.injEq] at hsource
              obtain ⟨-, rfl⟩ := hsource
              rw [hproduce] at h
              cases found <;> exact (congrArg Prod.snd h).symm
          | ok made =>
              rw [hproduce] at h
              exact absurd (congrArg Prod.fst h) nofun

/-- Either all files make something, or there is a first one that fails. -/
theorem makes_or_fails (files : List String) (source : σ) :
    (∃ products last, Makes ε find arguments options files source products last) ∨
      ∃ front file back products between failure, files = front ++ file :: back ∧
        Makes ε find arguments options front source products between ∧
        product find arguments.bytecode options file between =
          ((.error failure : Except (Failure (RunError ε)) Product), between) := by
  induction files generalizing source with
  | nil => exact .inl ⟨[], source, .nil source⟩
  | cons file files ih =>
      cases hproduct : (product find arguments.bytecode options file source :
        Except (Failure (RunError ε)) Product × σ) with
      | mk result next =>
          cases result with
          | error failure =>
              have hnext := product_source hproduct
              rw [hnext] at hproduct
              exact .inr ⟨[], file, files, [], source, failure, rfl, .nil source, hproduct⟩
          | ok made =>
              rcases ih next with ⟨products, last, hmakes⟩ |
                ⟨front, failed, back, products, between, failure, rfl, hmakes, hfails⟩
              · exact .inl ⟨made :: products, last, .cons hproduct hmakes⟩
              · exact .inr ⟨file :: front, failed, back, made :: products, between, failure,
                  rfl, .cons hproduct hmakes, hfails⟩

theorem blocks_of_ok {file : String} {made : Product} (index : Nat) (output : String)
    (files : List String)
    (h : product find arguments.bytecode options file source =
      ((.ok made : Except (Failure (RunError ε)) Product), between)) :
    (blocks find arguments options index output source (file :: files) : Outcome ε σ) =
      blocks find arguments options (index + 1)
        (output ++ Report.block file made arguments.betweenWords index arguments.files.length)
        between files := by
  simp only [blocks, h]

/-- In front of other files, every block is set off from the next one. -/
theorem blocks_append (hmakes : Makes ε find arguments options front source products between)
    (index : Nat) (output : String) (hback : back ≠ [])
    (htotal : index + (front ++ back).length = arguments.files.length) :
    (blocks find arguments options index output source (front ++ back) : Outcome ε σ) =
      blocks find arguments options (index + front.length)
        (output ++ String.join ((written arguments front products).map (· ++ "\n")))
        between back := by
  induction hmakes generalizing index output with
  | nil source => simp [written]
  | @cons file files made products source next last hproduct hrest ih =>
      have hpos := List.length_pos_iff.mpr hback
      simp only [List.cons_append, List.length_cons, List.length_append] at htotal
      rw [List.cons_append, blocks_of_ok index output (files ++ back) hproduct,
        Report.block_of_lt _ _ _ (by omega), ih _ _ (by simp; omega)]
      simp [written, String.join_cons, String.append_assoc, Nat.add_assoc, Nat.add_comm 1]

/-- Up to the end, there is an empty line between each block and the next one. -/
theorem blocks_eq_of_makes (hmakes : Makes ε find arguments options files source products last)
    (index : Nat) (output : String) (htotal : index + files.length = arguments.files.length) :
    (blocks find arguments options index output source files : Outcome ε σ) =
      ⟨output ++ "\n".intercalate (written arguments files products), none, last⟩ := by
  induction hmakes generalizing index output with
  | nil source => simp [blocks, written]
  | @cons file files made products source next last hproduct hrest ih =>
      rw [List.length_cons] at htotal
      rw [blocks_of_ok index output files hproduct, ih _ _ (by omega)]
      cases hrest with
      | nil => simp [written, Report.block_of_last _ _ _ htotal]
      | cons _ _ =>
          rw [Report.block_of_lt _ _ _ (by simp only [List.length_cons] at htotal; omega)]
          simp [written, String.intercalate_cons_cons, String.append_assoc]

end Run

open Run

variable {ε σ : Type} [Draw σ] {library : Json.Library ε} {find : String → Entry}
  {arguments : Arguments} {options : Options}

theorem missing_eq_nil_iff {files : List String} :
    missing find files = [] ↔ ∀ file ∈ files, (find file).exists = true := by
  simp [missing]

theorem run_of_exists (hoptions : Run.options library find arguments = .ok options)
    (hall : ∀ file ∈ arguments.files, (find file).exists = true) (source : σ) :
    run library find arguments source =
      blocks find arguments options 0 "" source arguments.files := by
  simp only [run, hoptions, missing_eq_nil_iff.mpr hall]

private theorem run_of_missing (hoptions : Run.options library find arguments = .ok options)
    (habsent : ∃ file ∈ arguments.files, (find file).exists = false) (source : σ) :
    run library find arguments source =
      ⟨"", some (.error (.missing (missing find arguments.files))), source⟩ := by
  have hmissing : missing find arguments.files ≠ [] := by
    obtain ⟨file, hfile, habsent⟩ := habsent
    rw [ne_eq, missing_eq_nil_iff]
    intro hall
    simp [hall file hfile] at habsent
  cases hpaths : missing find arguments.files with
  | nil => contradiction
  | cons path paths => simp only [run, hoptions, hpaths]

/--
If the options cannot be had, or a file is missing, nothing is written.
Otherwise the blocks of the files in front of the first one that fails are
written, each with an empty line behind it, or those of all files with an empty
line between each and the next.  The failure is an error about the file that
failed, unless the file is in order and more words are asked of it than a list
can hold: then it is a panic.
-/
theorem run_outcome (library : Json.Library ε) (find : String → Entry) (arguments : Arguments)
    (source : σ) :
    (∀ path, arguments.config = some path → (find path).text? = none →
      run library find arguments source = ⟨"", some (.error (.reading path)), source⟩) ∧
    (∀ path text fault, arguments.config = some path → (find path).text? = some text →
      library.read Options.declared text.toList = .error fault →
      run library find arguments source = ⟨"", some (.error (.config path fault)), source⟩) ∧
    ∀ options, Run.options library find arguments = .ok options →
      ((∃ file ∈ arguments.files, (find file).exists = false) →
        run library find arguments source =
          ⟨"", some (.error (.missing (missing find arguments.files))), source⟩) ∧
      ((∀ file ∈ arguments.files, (find file).exists = true) →
        (∀ front file back products between failure last,
          arguments.files = front ++ file :: back →
          Makes ε find arguments options front source products between →
          product find arguments.bytecode options file between = (.error failure, last) →
          (∀ error, failure = .error error → error.paths = [file]) ∧
          (failure = .panic ↔ arguments.bytecode = false ∧ options.syllables.Valid ∧
            (∃ loaded, grammar find file = (.ok loaded : Except (RunError ε) Grammar) ∧
              ∃ code, loaded.compile = .ok code) ∧
            Words.maxWords < options.words.toNat) ∧
          run library find arguments source =
            ⟨String.join ((written arguments front products).map (· ++ "\n")),
              some failure, between⟩) ∧
        (∀ products last, Makes ε find arguments options arguments.files source products last →
          run library find arguments source =
            ⟨"\n".intercalate (written arguments arguments.files products), none, last⟩) ∧
        ((∃ products last, Makes ε find arguments options arguments.files source products last) ∨
          ∃ front file back products between failure,
            arguments.files = front ++ file :: back ∧
            Makes ε find arguments options front source products between ∧
            product find arguments.bytecode options file between =
              ((.error failure : Except (Failure (RunError ε)) Product), between))) ∧
      (1 < arguments.files.length → ∀ files products,
        ∀ block ∈ written arguments files products, ∃ text, block = text ++ "\n") := by
  refine ⟨?unread, ?unparsed, fun options hoptions =>
    ⟨fun habsent => run_of_missing hoptions habsent source, fun hall => ⟨?fails, ?succeeds,
      makes_or_fails arguments.files source⟩, ?ends⟩⟩
  case unread =>
    intro path hconfig htext
    simp only [run, Run.options, hconfig, htext]
  case unparsed =>
    intro path text fault hconfig htext hparse
    simp only [run, Run.options, hconfig, htext, hparse]
  case fails =>
    intro front file back products between failure last hfiles hmakes hfails
    have hlast := product_source hfails
    subst hlast
    refine ⟨?_, ?_, ?_⟩
    · rintro error rfl
      exact product_error_paths hfails
    · have hpanic := product_panic_iff ε find options file arguments.bytecode last
      rwa [hfails, Except.error.injEq] at hpanic
    · have hblocks := blocks_append hmakes 0 "" (List.cons_ne_nil file back)
        (by rw [Nat.zero_add, hfiles])
      rw [run_of_exists hoptions hall, hfiles, hblocks, String.empty_append]
      simp only [blocks, hfails]
  case succeeds =>
    intro products last hmakes
    rw [run_of_exists hoptions hall, blocks_eq_of_makes hmakes 0 "" (Nat.zero_add _),
      String.empty_append]
  case ends =>
    intro hmany files products block hblock
    obtain ⟨position, hposition, rfl⟩ := List.mem_iff_getElem.mp hblock
    simp only [written, List.getElem_zipWith]
    exact Report.headed_ends _ _ _ hmany

/-!
Two files of words and one without a root; the source decides on one or two
syllables.  The last run asks for one word more than a list can hold.
-/

def shelf : String → Entry
  | "long" => .file "pa".toUTF8
  | "short" => .file "ka".toUTF8
  | "rest" => .file "# ka".toUTF8
  | _ => .absent

def shelfArguments : Arguments :=
  { Arguments.empty with
    files := ["long", "short", "rest", "long"]
    duplicates := true
    syllables := some (.range 1 2)
    words := some 1 }

def shelfOptions : Options := ⟨1, .range 1 2, "", true⟩

def overlongArguments : Arguments :=
  { Arguments.empty with files := ["short"], words := some 384307168202282326 }

/-- Without definitions a file makes a single word of one or two of its root's texts. -/
theorem product_shelf {ε : Type} {file : String} {text : List Char} {root : Pattern}
    (hgrammar : grammar shelf file = (.ok (.mk text []) : Except (RunError ε) Grammar))
    (hroot : Pattern.parse text = .ok root)
    (hfault : compileFault [] root = none) (script : Script) :
    product shelf false shelfOptions file script =
      let (count, script) := Draw.between 1 2 script
      let (syllables, script) := Words.collect root.spoken count script #[]
      ((.ok (.words ["".intercalate syllables.toList]) : Except (Failure (RunError ε)) Product),
        script) := by
  have hwords := Words.generate_root hroot hfault
    (rfl : Words.checkSyllables shelfOptions.syllables = .ok ()) (by decide) script
  simp only [product, hgrammar, Grammar.produce, hwords]
  rfl

theorem run_shelf :
    run Json.library shelf shelfArguments (Script.mk [2, 1] .low) =
        ⟨"--- long\npapa\n\n--- short\nka\n\n", some (.error (.loading "rest" .missingRoot)),
          ⟨[], .low⟩⟩ ∧
      run Json.library shelf overlongArguments (Script.mk [] .low) =
        ⟨"", some .panic, ⟨[], .low⟩⟩ := by
  have hpa : compileFault [] (.sequence [.text ['p', 'a']]) = none :=
    (compileFault_nil _).trans (by rfl)
  have hka : compileFault [] (.sequence [.text ['k', 'a']]) = none :=
    (compileFault_nil _).trans (by rfl)
  constructor
  · have hall : ∀ file ∈ shelfArguments.files, (shelf file).exists = true := by decide
    have hlong : product shelf false shelfOptions "long" (Script.mk [2, 1] .low) =
        ((.ok (.words ["papa"]) : Except (Failure (RunError Json.Fault)) Product), ⟨[1], .low⟩) :=
      product_shelf rfl rfl hpa _
    have hshort : product shelf false shelfOptions "short" (Script.mk [1] .low) =
        ((.ok (.words ["ka"]) : Except (Failure (RunError Json.Fault)) Product), ⟨[], .low⟩) :=
      product_shelf rfl rfl hka _
    have hrest : product shelf false shelfOptions "rest" (Script.mk [] .low) =
        ((.error (.error (.loading "rest" .missingRoot)) :
          Except (Failure (RunError Json.Fault)) Product), ⟨[], .low⟩) := by rfl
    obtain ⟨-, -, hrun⟩ :=
      ((((run_outcome Json.library shelf shelfArguments (Script.mk [2, 1] .low)).2.2
        shelfOptions rfl).2.1 hall).1 ["long", "short"] "rest" ["long"] _ _ _ _ rfl
          (.cons hlong (.cons hshort (.nil _))) hrest)
    exact hrun.trans (by rfl)
  · have hall : ∀ file ∈ overlongArguments.files, (shelf file).exists = true := by decide
    have hpanic : (product shelf false (overlongArguments.options .default) "short"
        (Script.mk [] .low)).1 = (.error .panic : Except (Failure (RunError Json.Fault)) Product) :=
      (product_panic_iff ..).mpr
        ⟨rfl, trivial, ⟨_, rfl, _, Grammar.compile_root rfl hka⟩, by decide⟩
    obtain ⟨-, -, hrun⟩ :=
      ((((run_outcome Json.library shelf overlongArguments (Script.mk [] .low)).2.2
        _ rfl).2.1 hall).1 [] "short" [] _ _ _ _ rfl (.nil _) (Prod.ext hpanic rfl))
    exact hrun

end Wordmill
