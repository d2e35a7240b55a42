import Mathlib.Data.List.ReduceOption
import Wordmill.Options.Json
import Wordmill.Proofs.Json.Conformance

/-!
# Options as JSON

An object may name any of the settings, in any order, with members of other names
between them.  A library that keeps to its rules takes one member after another,
so what it reads depends only on which settings were named; what it writes is one
of the texts that give the options back.
-/

namespace Wordmill.Options

open Json

/-! ## The texts of options -/

def bounds (least greatest : UInt32) : List (String × UInt32) := [("min", least), ("max", greatest)]

def BoundText (bound : String × UInt32) : List Char → Prop :=
  Names bound.1.toList (· = Nat.toDigits 10 bound.2.toNat)

/-- A count stands for itself, a range for an object of its bounds in either order. -/
inductive SyllablesText : Syllables → List Char → Prop where
  | fixed (count : UInt32) : SyllablesText (.fixed count) (Nat.toDigits 10 count.toNat)
  | range {least greatest : UInt32} {order : List (String × UInt32)} {text : List Char}
      (horder : order ∈ [bounds least greatest, (bounds least greatest).reverse])
      (htext : IsObject BoundText order text) : SyllablesText (.range least greatest) text

inductive SettingText (options : Options) : Setting → List Char → Prop where
  | words : SettingText options .words (Nat.toDigits 10 options.words.toNat)
  | syllables {text : List Char} (htext : SyllablesText options.syllables text) :
      SettingText options .syllables text
  | separator {text : List Char} (htext : Quotes text options.separator.toList) :
      SettingText options .separator text
  | duplicates :
      SettingText options .duplicates (if options.duplicates then "true" else "false").toList

/-- A member for a setting of the options, or one of another name with any value at all. -/
inductive MemberText (options : Options) : Option Setting → List Char → Prop where
  | setting {setting : Setting} {text : List Char}
      (htext : Names setting.field.name.toList (SettingText options setting) text) :
      MemberText options (some setting) text
  | other {name text : List Char} (hname : ∀ setting : Setting, setting.field.name.toList ≠ name)
      (htext : Names name (Derives .value) text) : MemberText options none text

/-- The texts with a member for each of `entries`, in their order. -/
inductive ObjectText (options : Options) (entries : List (Option Setting)) : List Char → Prop where
  | intro {before object after : List Char} (hbefore : Blank before)
      (hobject : IsObject (MemberText options) entries object) (hafter : Blank after) :
      ObjectText options entries (before ++ object ++ after)

/-- What `base` becomes when the settings listed are taken from `options`. -/
def taking (base options : Options) (settings : List Setting) : Options :=
  ⟨if .words ∈ settings then options.words else base.words,
    if .syllables ∈ settings then options.syllables else base.syllables,
    if .separator ∈ settings then options.separator else base.separator,
    if .duplicates ∈ settings then options.duplicates else base.duplicates⟩

private theorem taking_all (base options : Options) :
    base.taking options Setting.all = options := rfl

theorem taking_cons (base options : Options) (setting : Setting) (settings : List Setting) :
    base.taking options (setting :: settings) =
      (setting.field.set (setting.field.get options) base).taking options settings := by
  cases setting <;> simp [taking, Setting.field]

private theorem taking_append (base options : Options) (first rest : List Setting) :
    base.taking options (first ++ rest) = (base.taking options first).taking options rest := by
  induction first generalizing base with
  | nil => rfl
  | cons setting first ih => rw [List.cons_append, taking_cons, taking_cons, ih]

theorem reduceOption_cons {α : Type} (entry : Option α) (entries : List (Option α)) :
    (entry :: entries).reduceOption = entry.toList ++ entries.reduceOption := by
  cases entry <;> rfl

/-! ## Values -/

theorem atom_toDigits (n : Nat) : Atom (Nat.toDigits 10 n) := by
  have hwhole := isWhole_toDigits n
  have hnumber : IsNumber ([] ++ Nat.toDigits 10 n ++ [] ++ []) :=
    .intro List.mem_cons_self hwhole .none .none
  refine ⟨.number (by simpa using hnumber), fun c hc => ?_⟩
  have hdigit := allDigits_toDigits n c (List.mem_of_mem_head? hc)
  rintro hbracket
  simp only [List.mem_cons, List.not_mem_nil, or_false] at hbracket
  obtain rfl | rfl := hbracket <;> contradiction

private theorem atom_quotes {text chars : List Char} (h : Quotes text chars) : Atom text := by
  cases h with
  | intro hbody => exact ⟨.text hbody, by simp⟩

private theorem atom_bool (value : Bool) : Atom (if value then "true" else "false").toList := by
  cases value with
  | true => exact ⟨.true, by simp⟩
  | false => exact ⟨.false, by simp⟩

theorem names_imp {name text : List Char} {P Q : List Char → Prop} (h : Names name P text)
    (himp : ∀ value, P value → Q value) : Names name Q text := by
  cases h with
  | intro hbefore hkey hmiddle hbetween hvalue hafter =>
      exact .intro hbefore hkey hmiddle hbetween (himp _ hvalue) hafter

theorem derives_names {name text : List Char} (h : Names name (Derives .value) text) :
    Derives .member text := by
  cases h with
  | intro hbefore hkey hmiddle hbetween hvalue hafter =>
      cases hkey with
      | intro hbody =>
          simpa using Derives.member hbefore hbody hmiddle (.element hbetween hvalue hafter)

section

universe u v

variable {α : Type u} {β : Type v} {P : α → List Char → Prop} {Q : β → List Char → Prop}

private theorem isMembers_imp {entries : List α} {others : List β} {text : List Char}
    (h : IsMembers P entries text)
    (himp : List.Forall₂ (fun entry other => ∀ member, P entry member → Q other member)
      entries others) : IsMembers Q others text := by
  induction h generalizing others with
  | last hmember =>
      cases himp with
      | cons hfirst hnone =>
          cases hnone
          exact .last (hfirst _ hmember)
  | more hmember _ ih =>
      cases himp with
      | cons hfirst hrest => exact .more (hfirst _ hmember) (ih hrest)

theorem isObject_imp {entries : List α} {others : List β} {text : List Char}
    (h : IsObject P entries text)
    (himp : List.Forall₂ (fun entry other => ∀ member, P entry member → Q other member)
      entries others) : IsObject Q others text := by
  cases h with
  | empty hblank =>
      cases himp
      exact .empty hblank
  | members hmembers => exact .members (isMembers_imp hmembers himp)

theorem derives_isObject {entries : List α} {text : List Char} (h : IsObject P entries text)
    (hmember : ∀ entry member, P entry member → Derives .member member) : Derives .value text := by
  have hmembers {entries : List α} {members : List Char} (h : IsMembers P entries members) :
      Derives .members members := by
    induction h with
    | last hlast => exact .lastMember (hmember _ _ hlast)
    | more hfirst _ ih => exact .moreMembers (hmember _ _ hfirst) ih
  cases h with
  | empty hblank => exact .emptyObject hblank
  | members h => exact .object (hmembers h)

end

/-! ## Reading -/

section

variable {ε : Type} {library : Library ε} (conforms : library.Conforms)

include conforms

theorem reads_count (count : UInt32) :
    library.Reads (.kind (.scalar .u32)) count (Nat.toDigits 10 count.toNat) :=
  ⟨(atom_toDigits _).1, conforms.read_u32 count⟩

theorem reads_bounds {least greatest : UInt32} {order : List (String × UInt32)}
    {fields : List (Field Scalar (UInt32 × UInt32))} {text : List Char}
    (hfields : List.Forall₂ (fun bound field => ∀ member, BoundText bound member →
      library.ScalarMember (least, greatest) field member) order fields)
    (hperm : fields.Perm Syllables.bounds) (htext : IsObject BoundText order text) :
    library.Reads (.kind (.untagged Syllables.variants)) (.range least greatest) text ∧
      Flat text := by
  have hobject := isObject_imp htext hfields
  obtain ⟨fault, hfault⟩ := conforms.read_scalar_variant_object hobject
  have hvalue (name : String) (count : UInt32) (member : List Char)
      (hmember : BoundText (name, count) member) : Names name.toList Atom member :=
    names_imp hmember fun _ hdigits => hdigits ▸ atom_toDigits count.toNat
  have hflat : IsObject (fun name => Names name Atom) (order.map (·.1.toList)) text := by
    refine isObject_imp htext ?_
    rw [List.forall₂_map_right_iff, List.forall₂_same]
    exact fun bound _ => hvalue bound.1 bound.2
  have hderives := derives_isObject hflat fun _ _ hmember =>
    derives_names (names_imp hmember fun _ hatom => hatom.1)
  have hread : library.read (.kind (.untagged Syllables.variants)) text =
      .ok (.range least greatest) :=
    conforms.read_next_variant hfault (conforms.read_record_variant (by decide) hperm hobject)
  exact ⟨⟨hderives, hread⟩, .object hflat⟩

private theorem reads_syllablesText {syllables : Syllables} {text : List Char}
    (h : SyllablesText syllables text) :
    library.Reads (.kind (.untagged Syllables.variants)) syllables text ∧ Flat text := by
  cases h with
  | fixed count =>
      have hatom := atom_toDigits count.toNat
      have hread : library.read (.kind (.untagged Syllables.variants))
          (Nat.toDigits 10 count.toNat) = .ok (.fixed count) :=
        conforms.read_first_variant (conforms.read_scalar_variant (reads_count conforms count))
      exact ⟨⟨hatom.1, hread⟩, .atom hatom⟩
  | @range least greatest order _ horder htext =>
      have hmin (member : List Char) (h : BoundText ("min", least) member) :
          Names "min".toList (library.Reads (.kind (.scalar .u32)) least) member :=
        names_imp h fun _ hdigits => hdigits ▸ reads_count conforms least
      have hmax (member : List Char) (h : BoundText ("max", greatest) member) :
          Names "max".toList (library.Reads (.kind (.scalar .u32)) greatest) member :=
        names_imp h fun _ hdigits => hdigits ▸ reads_count conforms greatest
      simp only [List.mem_cons, List.not_mem_nil, or_false] at horder
      obtain rfl | rfl := horder
      · exact reads_bounds conforms (.cons hmin (.cons hmax .nil)) (.refl _) htext
      · exact reads_bounds conforms (.cons hmax (.cons hmin .nil)) (.swap ..) htext

theorem reads_settingText {options : Options} {setting : Setting} {text : List Char}
    (h : SettingText options setting text) :
    library.Reads (.kind setting.field.kind) (setting.field.get options) text ∧ Flat text := by
  cases h with
  | words =>
      have hatom := atom_toDigits options.words.toNat
      exact ⟨⟨hatom.1, conforms.read_u64 options.words⟩, .atom hatom⟩
  | syllables htext => exact reads_syllablesText conforms htext
  | separator htext =>
      have hatom := atom_quotes htext
      have hread := conforms.read_string htext
      rw [String.ofList_toList] at hread
      exact ⟨⟨hatom.1, hread⟩, .atom hatom⟩
  | duplicates =>
      have hatom := atom_bool options.duplicates
      exact ⟨⟨hatom.1, conforms.read_bool options.duplicates⟩, .atom hatom⟩

theorem exists_name {options : Options} {entry : Option Setting} {text : List Char}
    (h : MemberText options entry text) :
    ∃ name, Names name (Derives .value) text ∧
      ∀ setting ∉ entry.toList, setting.field.name.toList ≠ name := by
  cases h with
  | @setting setting _ htext =>
      refine ⟨setting.field.name.toList,
        names_imp htext fun _ h => (reads_settingText conforms h).1.1, fun other hother => ?_⟩
      have hname : ∀ other : Setting, other ≠ setting → other.field.name ≠ setting.field.name := by
        cases setting <;> rintro (_ | _ | _ | _) <;> simp [Setting.field]
      rw [Ne, String.toList_inj]
      exact hname other (by simpa using hother)
  | other hname htext => exact ⟨_, htext, fun setting _ => hname setting⟩

private theorem exists_names {options : Options} {entries : List (Option Setting)}
    {members : List Char} (h : IsMembers (MemberText options) entries members) :
    ∃ names, IsMembers (fun name => Names name (Derives .value)) names members ∧
      ∀ setting ∉ entries.reduceOption, setting.field.name.toList ∉ names := by
  induction h with
  | last hmember =>
      obtain ⟨name, hname, hother⟩ := exists_name conforms hmember
      refine ⟨[name], .last hname, fun setting hnew => ?_⟩
      rw [reduceOption_cons, List.reduceOption_nil, List.append_nil] at hnew
      simpa using hother setting hnew
  | more hmember _ ih =>
      obtain ⟨name, hname, hother⟩ := exists_name conforms hmember
      obtain ⟨names, hnames, hothers⟩ := ih
      refine ⟨name :: names, .more hname hnames, fun setting hnew => ?_⟩
      rw [reduceOption_cons, List.mem_append, not_or] at hnew
      exact List.not_mem_cons_of_ne_of_not_mem (hother setting hnew.1) (hothers setting hnew.2)

theorem read_memberText {options base made : Options} {entry : Option Setting}
    {names : List (List Char)} {member rest text : List Char}
    (hmember : MemberText options entry member) (htext : Precedes member names rest text)
    (hnew : ∀ setting ∈ entry.toList, setting.field.name.toList ∉ names)
    (hrest : library.read (.record (Setting.all.map Setting.field)
      (base.taking options entry.toList)) rest = .ok made) :
    library.read (.record (Setting.all.map Setting.field) base) text = .ok made := by
  cases hmember with
  | @setting setting _ hmember =>
      have hfield : setting.field ∈ Setting.all.map Setting.field :=
        List.mem_map_of_mem (by cases setting <;> decide)
      exact conforms.read_member (by decide) hfield
        (names_imp hmember fun _ h => reads_settingText conforms h) htext
        (hnew setting List.mem_cons_self) (by rwa [Option.toList_some, taking_cons] at hrest)
  | other hname hmember =>
      exact conforms.read_unknown (List.forall_mem_map.mpr fun setting _ => hname setting) hmember
        htext hrest

/-- The members make of any defaults what the settings named make of them. -/
theorem read_members {options : Options} {entries : List (Option Setting)} {members : List Char}
    (h : IsMembers (MemberText options) entries members) (hnodup : entries.reduceOption.Nodup)
    (base : Options) :
    library.read (.record (Setting.all.map Setting.field) base) ('\x7b' :: members ++ ['\x7d']) =
      .ok (base.taking options entries.reduceOption) := by
  induction h generalizing base with
  | last hmember =>
      rw [reduceOption_cons, List.reduceOption_nil, List.append_nil]
      exact read_memberText conforms hmember (.only blank_nil) (fun _ _ => List.not_mem_nil)
        (conforms.read_empty blank_nil)
  | @more entry entries _ _ hmember hmembers ih =>
      rw [reduceOption_cons] at hnodup ⊢
      obtain ⟨-, hrest, hdisjoint⟩ := List.nodup_append.mp hnodup
      obtain ⟨names, hnames, hnew⟩ := exists_names conforms hmembers
      rw [taking_append]
      refine read_memberText conforms hmember (.others hnames) (fun setting hsetting => ?_)
        (ih hrest _)
      exact hnew setting fun hagain => hdisjoint setting hsetting setting hagain rfl

theorem read_objectText {options : Options} {entries : List (Option Setting)} {text : List Char}
    (h : ObjectText options entries text) (hnodup : entries.reduceOption.Nodup) :
    library.read declared text = .ok (Options.default.taking options entries.reduceOption) := by
  cases h with
  | intro hbefore hobject hafter =>
      have hderives := derives_isObject hobject fun entry member hmember =>
        derives_names (exists_name conforms hmember).choose_spec.1
      refine conforms.read_blank hbefore hafter ⟨hderives, ?_⟩
      cases hobject with
      | empty hblank => exact conforms.read_empty hblank
      | members hmembers => exact read_members conforms hmembers hnodup .default

/-! ## Writing -/

private theorem syllablesText_write (syllables : Syllables) :
    SyllablesText syllables (library.write (.kind (.untagged Syllables.variants)) syllables) := by
  cases syllables with
  | fixed count =>
      have hwrite : library.write (.kind (.untagged Syllables.variants)) (.fixed count) =
          library.write (.kind (.scalar .u32)) count :=
        conforms.write_scalar_variant _ _ _ rfl
      rw [hwrite, conforms.write_u32]
      exact .fixed count
  | range least greatest =>
      have hnext : library.write (.kind (.untagged Syllables.variants)) (.range least greatest) =
          library.write (.kind (.untagged [Syllables.variants[1]])) (.range least greatest) :=
        conforms.write_next_variant _ rfl
      have hobject := conforms.write_record_variant Syllables.bounds (0, 0)
        (fun bounds => Syllables.range bounds.1 bounds.2) []
        (rfl : Syllables.range? (.range least greatest) = some (least, greatest))
      rw [hnext]
      refine .range List.mem_cons_self (isObject_imp hobject (.cons ?_ (.cons ?_ .nil)))
      · exact fun member hmember => names_imp hmember fun _ h => h.trans (conforms.write_u32 least)
      · exact fun member hmember => names_imp hmember fun _ h =>
          h.trans (conforms.write_u32 greatest)

private theorem settingText_write (options : Options) (setting : Setting) :
    SettingText options setting
      (library.write (.kind setting.field.kind) (setting.field.get options)) := by
  cases setting with
  | words => exact (conforms.write_u64 options.words) ▸ .words
  | syllables => exact .syllables (syllablesText_write conforms options.syllables)
  | separator => exact .separator (conforms.write_string options.separator)
  | duplicates => exact (conforms.write_bool options.duplicates) ▸ .duplicates

private theorem isObject_write (options : Options) :
    IsObject (MemberText options) (Setting.all.map some) (library.write declared options) := by
  refine isObject_imp (conforms.write_record (Setting.all.map Setting.field) .default options) ?_
  rw [List.forall₂_map_left_iff, List.forall₂_map_right_iff, List.forall₂_same]
  intro setting _ member hmember
  exact .setting (names_imp hmember fun _ h => h ▸ settingText_write conforms options setting)

end

/--
Any text of an object with members for some of the settings, in any order and among
any members of other names, gives these settings and the defaults for the others;
the text that is written gives the options back.
-/
theorem read_settings {ε : Type} {library : Library ε} (conforms : library.Conforms)
    (options : Options) :
    (∀ (entries : List (Option Setting)) (text : List Char), entries.reduceOption.Nodup →
      ObjectText options entries text →
        library.read declared text = .ok (Options.default.taking options entries.reduceOption)) ∧
    library.read declared (library.write declared options) = .ok options := by
  refine ⟨fun entries text hnodup htext => read_objectText conforms htext hnodup, ?_⟩
  have htext : ObjectText options (Setting.all.map some) (library.write declared options) := by
    simpa using ObjectText.intro blank_nil (isObject_write conforms options) blank_nil
  have hall : (Setting.all.map some).reduceOption = Setting.all := rfl
  have hread := read_objectText conforms htext (by rw [hall]; decide)
  rwa [hall, taking_all] at hread

theorem read_settings_nested :
    Json.library.read declared "\x7b\"note\" : [1e9, \"\\ud800\"] ,\"words\":7\x7d".toList =
      .ok ⟨7, .fixed 1, "", false⟩ := by
  let options : Options := ⟨7, .range 2 9, "-", true⟩
  have hspace : Blank [' '] := List.forall_mem_singleton.mpr List.mem_cons_self
  have hnumber : IsNumber ([] ++ ['1'] ++ [] ++ ['e', '9']) :=
    .intro List.mem_cons_self (.digits rfl (by decide) (by simp [AllDigits])) .none
      (.some List.mem_cons_self List.mem_cons_self (by decide) (List.forall_mem_singleton.mpr rfl))
  have hhalf : Derives .value "\"\\ud800\"".toList :=
    .text (.codeUnit (by decide : IsHex 'd' 13) (by decide : IsHex '8' 8)
      (by decide : IsHex '0' 0) (by decide : IsHex '0' 0) .nil)
  have helements := Derives.moreElements (.element blank_nil (.number hnumber) blank_nil)
    (.lastElement (.element hspace hhalf blank_nil))
  have hname (setting : Setting) : setting.field.name.toList ≠ "note".toList := by
    cases setting <;> decide
  have hnote : MemberText options none _ :=
    .other hname (.intro blank_nil (quotes_quote "note") hspace hspace
      (Derives.array helements) hspace)
  have hwords : MemberText options (some .words)
      (quote "words" ++ ':' :: Nat.toDigits 10 (7 : UInt64).toNat) :=
    .setting (names_quote "words" SettingText.words)
  have htext : ObjectText options [none, some .words] _ :=
    .intro blank_nil (.members (.more hnote (.last hwords))) blank_nil
  have hkeys : quote "note" = "\"note\"".toList ∧ quote "words" = "\"words\"".toList := by decide
  have hseven : Nat.toDigits 10 (7 : UInt64).toNat = ['7'] := by decide
  rw [hkeys.1, hkeys.2, hseven] at htext
  exact (read_settings library_conforms options).1 [none, some .words] _ (by decide) htext

end Wordmill.Options
