import Wordmill.Proofs.Json.Library
import Wordmill.Proofs.Json.Members

/-!
# The library keeps to the rules

Each rule comes down to what the tokens of a text do to the reader, and to which
texts the writer makes.
-/

namespace Wordmill.Json

theorem Scans.tokens_eq {text : List Char} {ts : List Token} (h : Scans text ts) :
    tokens text = ts := by
  have htokens := h [] delimits_nil
  rwa [List.append_nil, tokens_nil, List.append_nil] at htokens

section

variable {α : Type}

theorem library_read_eq_ok_iff {declared : Declared α} {text : List Char} {value : α} :
    library.read declared text = .ok value ↔ declared.read (tokens text) = .ok (value, []) := by
  unfold library
  constructor
  · intro h
    simp only at h
    split at h
    · contradiction
    · rename_i hread
      rw [hread, Except.ok.inj h]
    · contradiction
  · intro h
    simp only [h]

/-- A value that is read from its text is read in front of anything. -/
theorem exists_read_of_reads {kind : Kind α} {value : α} {text : List Char}
    (h : library.Reads (.kind kind) value text) :
    ∃ ts, Scans text ts ∧ ∀ rest, kind.read (ts ++ rest) = .ok (value, rest) := by
  obtain ⟨hderives, hread⟩ := h
  obtain ⟨ts, hscan, -⟩ := exists_passesOver hderives
  have hwhole := library_read_eq_ok_iff.mp hread
  rw [hscan.tokens_eq] at hwhole
  exact ⟨ts, hscan, fun rest => Kind.read_append hwhole rest⟩

theorem read_blank {declared : Declared α} {value : α} {before text after : List Char}
    (hbefore : Blank before) (hafter : Blank after) (htext : library.Reads declared value text) :
    library.read declared (before ++ text ++ after) = .ok value := by
  obtain ⟨hderives, hread⟩ := htext
  obtain ⟨ts, hscan, -⟩ := exists_passesOver hderives
  have hwhole := (hscan.blank_append hbefore).append_blank hafter
  rw [library_read_eq_ok_iff, hscan.tokens_eq] at hread
  rw [library_read_eq_ok_iff, hwhole.tokens_eq, hread]

/-! ## Scalars -/

theorem read_kind_scalar {kind : Scalar α} {token : Token} {json : Json} {value : α}
    {text : List Char} (hscan : Scans text [token]) (htoken : token.scalar .read = .ok json)
    (hvalue : kind.ofJson? json = some value) :
    library.read (.kind (.scalar kind)) text = .ok value := by
  rw [library_read_eq_ok_iff, hscan.tokens_eq]
  exact Kind.read_eq_ok_iff.mpr
    ⟨json, readScalar_eq_ok_iff.mpr ⟨token, rfl, htoken⟩, hvalue⟩

theorem scalar_natural {n : Nat} (h : n ≤ Number.maxSignificand) :
    (Token.number (.ofNat n)).scalar .read = .ok (.number (.ofNat n)) := by
  simp [Token.scalar, Number.overflows_ofNat h]

theorem naturalOf?_ofNat {n limit : Nat} (h : n ≤ limit) :
    naturalOf? limit (.number (.ofNat n)) = some n := by
  simp [naturalOf?, Number.natural?_ofNat, h]

theorem read_u32 (n : UInt32) :
    library.read (.kind (.scalar .u32)) (Nat.toDigits 10 n.toNat) = .ok n := by
  have hlimit : n.toNat ≤ 0xFFFFFFFF := Nat.le_of_lt_succ n.toNat_lt
  have hsmall : 0xFFFFFFFF ≤ Number.maxSignificand := by decide
  refine read_kind_scalar (scans_natural _) (scalar_natural (Nat.le_trans hlimit hsmall)) ?_
  simp [Scalar.ofJson?, naturalOf?_ofNat hlimit]

theorem read_u64 (n : UInt64) :
    library.read (.kind (.scalar .u64)) (Nat.toDigits 10 n.toNat) = .ok n := by
  have hlimit : n.toNat ≤ 0xFFFFFFFFFFFFFFFF := Nat.le_of_lt_succ n.toNat_lt
  have hsmall : 0xFFFFFFFFFFFFFFFF ≤ Number.maxSignificand := by decide
  refine read_kind_scalar (scans_natural _) (scalar_natural (Nat.le_trans hlimit hsmall)) ?_
  simp [Scalar.ofJson?, naturalOf?_ofNat hlimit]

theorem read_bool (value : Bool) :
    library.read (.kind (.scalar .bool)) (if value then "true" else "false").toList = .ok value :=
  read_kind_scalar (scans_bool value) rfl rfl

theorem read_string {text chars : List Char} (h : Quotes text chars) :
    library.read (.kind (.scalar .string)) text = .ok (String.ofList chars) := by
  obtain ⟨pieces, hscan, hpieces⟩ := scans_quotes h
  have htoken : (Token.text pieces .complete).scalar .read = .ok (.text chars) := by
    simp [Token.scalar, hpieces]
  exact read_kind_scalar hscan htoken rfl

/-! ## Records with defaults -/

theorem library_read_record {fields : List (Field Kind α)} {default made : α} {text : List Char}
    {ts : List Token} (hscan : Scans text ts) :
    library.read (.record fields default) text = .ok made ↔
      ∃ seen, readRecord fields ⟨default, []⟩ ts = .ok (⟨made, seen⟩, []) := by
  rw [library_read_eq_ok_iff, hscan.tokens_eq]
  unfold Declared.read
  constructor
  · intro h
    simp only at h
    split at h
    · contradiction
    · rename_i hread
      obtain ⟨rfl, rfl⟩ := Prod.mk.inj (Except.ok.inj h)
      exact ⟨_, hread⟩
  · rintro ⟨seen, h⟩
    simp only [h]

theorem scans_emptyObject {blank : List Char} (hblank : Blank blank) :
    Scans ('\x7b' :: blank ++ ['\x7d']) [.openBrace, .closeBrace] :=
  .cons .openBrace ((scans_blank hblank).append_cons .closeBrace scans_nil)

theorem read_empty {fields : List (Field Kind α)} {default : α} {blank : List Char}
    (hblank : Blank blank) :
    library.read (.record fields default) ('\x7b' :: blank ++ ['\x7d']) = .ok default :=
  (library_read_record (scans_emptyObject hblank)).mpr ⟨[], rfl⟩

/-- The member in front makes `value` of the default, and the others go on from there. -/
theorem read_precedes {fields : List (Field Kind α)} {default value made : α} {pieces : List Piece}
    {seen : List String} {ts : List Token} {names : List (List Char)}
    {member rest text : List Char} (htext : Precedes member names rest text)
    (hscan : Scans member (.text pieces .complete :: ts))
    (hfirst : ∀ rest, readMember fields ⟨default, []⟩ (.text pieces .complete :: (ts ++ rest)) =
      .ok (⟨value, seen⟩, rest))
    (hseen : ∀ name ∈ seen, name.toList ∉ names)
    (hrest : library.read (.record fields value) rest = .ok made) :
    library.read (.record fields default) text = .ok made := by
  cases htext with
  | only hblank =>
      obtain rfl := Except.ok.inj ((read_empty hblank).symm.trans hrest)
      refine (library_read_record
        (.cons .openBrace (hscan.append_cons .closeBrace scans_nil))).mpr ⟨seen, ?_⟩
      exact readMembers_closeBrace (hfirst [.closeBrace])
  | others hmembers =>
      obtain ⟨others, more, hscanMore, hsaw⟩ := exists_scans_members hmembers
      obtain ⟨read, hread⟩ := (library_read_record
        (.cons .openBrace (hscanMore.append_cons .closeBrace scans_nil))).mp hrest
      have hmore := hsaw fields ⟨value, []⟩ ⟨made, read⟩ seen [] [] hseen hread
      have hwhole := (hscan.append_cons .comma hscanMore).append_cons .closeBrace scans_nil
      refine (library_read_record (.cons .openBrace hwhole)).mpr ⟨read ++ seen, ?_⟩
      have hcomma := hfirst (.comma :: .text others .complete :: (more ++ [.closeBrace]))
      simp only [List.cons_append, List.append_assoc]
      exact (readMembers_comma hcomma).trans hmore

theorem read_member {fields : List (Field Kind α)} {default made : α} {field : Field Kind α}
    {value : field.Value} {names : List (List Char)} {member rest text : List Char}
    (hdistinct : (fields.map (·.name)).Nodup) (hfield : field ∈ fields)
    (hmember : Names field.name.toList
      (fun text => library.Reads (.kind field.kind) value text ∧ Flat text) member)
    (htext : Precedes member names rest text) (hnew : field.name.toList ∉ names)
    (hrest : library.read (.record fields (field.set value default)) rest = .ok made) :
    library.read (.record fields default) text = .ok made := by
  obtain ⟨pieces, ts, hscan, hpieces, hread⟩ :=
    scans_names (fun ts => ∀ rest, field.kind.read (ts ++ rest) = .ok (value, rest)) hmember
      fun _ h => exists_read_of_reads h.1
  have hfirst (rest : List Token) :
      readMember fields ⟨default, []⟩ (.text pieces .complete :: .colon :: (ts ++ rest)) =
        .ok (⟨field.set value default, [field.name]⟩, rest) := by
    rw [readMember_field hpieces (fieldOf?_name hdistinct hfield) List.not_mem_nil]
    simp [Draft.read, hread]
  exact read_precedes htext hscan hfirst (by simpa) hrest

theorem read_unknown {fields : List (Field Kind α)} {default made : α} {name : List Char}
    {names : List (List Char)} {member rest text : List Char}
    (hname : ∀ field ∈ fields, field.name.toList ≠ name)
    (hmember : Names name (Derives .value) member) (htext : Precedes member names rest text)
    (hrest : library.read (.record fields default) rest = .ok made) :
    library.read (.record fields default) text = .ok made := by
  obtain ⟨pieces, ts, hscan, hpieces, hpass⟩ :=
    scans_names (PassesOver .value) hmember fun _ => exists_passesOver
  have hnone : fieldOf? fields name = none := List.find?_eq_none.mpr (by simpa using hname)
  exact read_precedes htext hscan (readMember_unknown hpieces hnone hpass) (by simp) hrest

/-! ## Variants -/

theorem library_read_untagged {variants : List (Variant α)} {text : List Char} {value : α} :
    library.read (.kind (.untagged variants)) text = .ok value ↔
      ∃ json, Json.read .read (tokens text) = .ok (json, []) ∧
        variants.findSome? (fun variant => variant.ofJson? json) = some value :=
  library_read_eq_ok_iff.trans Kind.read_eq_ok_iff

theorem read_first_variant {variant : Variant α} {variants : List (Variant α)} {value : α}
    {text : List Char} (h : library.read (.kind (.untagged [variant])) text = .ok value) :
    library.read (.kind (.untagged (variant :: variants))) text = .ok value := by
  obtain ⟨json, hjson, hvalue⟩ := library_read_untagged.mp h
  refine library_read_untagged.mpr ⟨json, hjson, ?_⟩
  cases hfirst : variant.ofJson? json <;> simp_all [List.findSome?]

theorem read_next_variant {variant : Variant α} {variants : List (Variant α)} {value : α}
    {fault : Fault} {text : List Char}
    (hfirst : library.read (.kind (.untagged [variant])) text = .error fault)
    (h : library.read (.kind (.untagged variants)) text = .ok value) :
    library.read (.kind (.untagged (variant :: variants))) text = .ok value := by
  obtain ⟨json, hjson, hvalue⟩ := library_read_untagged.mp h
  refine library_read_untagged.mpr ⟨json, hjson, ?_⟩
  cases hother : variant.ofJson? json with
  | none => rw [List.findSome?_cons, hother]; exact hvalue
  | some other =>
      have hone : library.read (.kind (.untagged [variant])) text = .ok other :=
        library_read_untagged.mpr ⟨json, hjson, by simp [hother]⟩
      rw [hone] at hfirst
      contradiction

theorem read_scalar_variant {β : Type} {kind : Scalar β} {wrap : β → α} {unwrap : α → Option β}
    {value : β} {text : List Char} (h : library.Reads (.kind (.scalar kind)) value text) :
    library.read (.kind (.untagged [.scalar kind wrap unwrap])) text = .ok (wrap value) := by
  obtain ⟨json, hjson, hvalue⟩ := Kind.read_eq_ok_iff.mp (library_read_eq_ok_iff.mp h.2)
  have hscalar : kind.ofJson? json = some value := hvalue
  refine library_read_untagged.mpr ⟨json, Kind.read_json hjson, ?_⟩
  simp [Variant.ofJson?, hscalar]

end

section

variable {α : Type} {record : α}

/-- A member that was read holds what the field does. -/
def Holds (record : α) (field : Field Scalar α) (member : List Char × Json) : Prop :=
  member.1 = field.name.toList ∧ field.kind.ofJson? member.2 = some (field.get record)

theorem exists_read_scalarMember {field : Field Scalar α} {text : List Char}
    (h : library.ScalarMember record field text) :
    ∃ pieces token member, Scans text [.text pieces .complete, .colon, token] ∧
      Holds record field member ∧
      ∀ read rest, readFrom .read [.members read []] .key
          (.text pieces .complete :: .colon :: token :: rest) =
        readFrom .read [.members (member :: read) []] .more rest := by
  have hvalue (text : List Char)
      (htext : library.Reads (.kind (.scalar field.kind)) (field.get record) text) :
      ∃ ts, Scans text ts ∧ ∃ token json, ts = [token] ∧ token.scalar .read = .ok json ∧
        field.kind.ofJson? json = some (field.get record) := by
    obtain ⟨ts, hscan, hread⟩ := exists_read_of_reads htext
    obtain ⟨json, hjson, hvalue⟩ := Kind.read_eq_ok_iff.mp (hread [])
    obtain ⟨token, htoken, hscalar⟩ := readScalar_eq_ok_iff.mp hjson
    rw [List.append_nil] at htoken
    exact ⟨ts, hscan, token, json, htoken, hscalar, hvalue⟩
  obtain ⟨pieces, _, hscan, hpieces, token, json, rfl, hscalar, hjson⟩ := scans_names _ h hvalue
  refine ⟨pieces, token, (field.name.toList, json), hscan, ⟨rfl, hjson⟩, fun read rest => ?_⟩
  have hkey : readToken .read [.members read []] .key (.text pieces .complete) =
      .ok (.reading [.members read field.name.toList] .colon) := by
    simp [readToken, readKey, Token.scalar, hpieces]
  have hcolon : readToken .read [.members read field.name.toList] .colon .colon =
      .ok (.reading [.members read field.name.toList] .value) := rfl
  rw [readFrom_cons _ hkey, proceed, readFrom_cons _ hcolon, proceed,
    readFrom_cons _ (readToken_scalar hscalar _)]
  rfl

private theorem exists_read_scalarMembers {order : List (Field Scalar α)} {members : List Char}
    (h : IsMembers (library.ScalarMember record) order members) :
    ∃ pieces ts found, Scans members (.text pieces .complete :: ts) ∧
      List.Forall₂ (Holds record) order found ∧
      ∀ read rest, readFrom .read [.members read []] .key
          (.text pieces .complete :: (ts ++ .closeBrace :: rest)) =
        .ok (.object (read.reverse ++ found), rest) := by
  induction h with
  | last hmember =>
      obtain ⟨pieces, token, member, hscan, hholds, hread⟩ := exists_read_scalarMember hmember
      refine ⟨pieces, [.colon, token], [member], hscan, .cons hholds .nil, fun read rest => ?_⟩
      have hclose : readToken .read [.members (member :: read) []] .more .closeBrace =
          .ok (.done (.object (member :: read).reverse)) := rfl
      refine (hread read _).trans ((readFrom_cons rest hclose).trans ?_)
      rw [List.reverse_cons]
      rfl
  | more hmember _ ih =>
      obtain ⟨pieces, token, member, hscan, hholds, hread⟩ := exists_read_scalarMember hmember
      obtain ⟨others, more, found, hscanMore, hfound, hreadMore⟩ := ih
      refine ⟨pieces, [.colon, token] ++ .comma :: .text others .complete :: more, member :: found,
        hscan.append_cons .comma hscanMore, .cons hholds hfound, fun read rest => ?_⟩
      have hcomma : readToken .read [.members (member :: read) []] .more .comma =
          .ok (.reading [.members (member :: read) []] .key) := rfl
      refine (hread read _).trans ((readFrom_cons _ hcomma).trans ?_)
      have hrest := hreadMore (member :: read) rest
      rw [List.reverse_cons, List.append_assoc] at hrest
      exact hrest

theorem exists_read_scalarObject {order : List (Field Scalar α)} {text : List Char}
    (h : IsObject (library.ScalarMember record) order text) :
    ∃ found, Json.read .read (tokens text) = .ok (.object found, []) ∧
      List.Forall₂ (Holds record) order found := by
  cases h with
  | empty hblank =>
      refine ⟨[], ?_, .nil⟩
      rw [(scans_emptyObject hblank).tokens_eq]
      rfl
  | members hmembers =>
      obtain ⟨pieces, ts, found, hscan, hfound, hread⟩ := exists_read_scalarMembers hmembers
      refine ⟨found, ?_, hfound⟩
      have hwhole := Scans.cons .openBrace (hscan.append_cons .closeBrace scans_nil)
      exact (congrArg (Json.read .read) hwhole.tokens_eq).trans (hread [] [])

private theorem names_of_holds {order : List (Field Scalar α)} {found : List (List Char × Json)}
    (h : List.Forall₂ (Holds record) order found) :
    found.map (·.1) = order.map (·.name.toList) := by
  induction h with
  | nil => rfl
  | cons hfirst _ ih => rw [List.map_cons, List.map_cons, ih, hfirst.1]

private theorem exists_memberOf? {order : List (Field Scalar α)} {found : List (List Char × Json)}
    {field : Field Scalar α} (hdistinct : (order.map (·.name)).Nodup) (hfield : field ∈ order)
    (hfound : List.Forall₂ (Holds record) order found) :
    ∃ json, memberOf? field.name found = some json ∧
      field.kind.ofJson? json = some (field.get record) := by
  induction hfound with
  | nil => contradiction
  | @cons first member order found hfirst hrest ih =>
      obtain ⟨hnew, hdistinct⟩ := List.nodup_cons.mp hdistinct
      obtain rfl | hfield := List.mem_cons.mp hfield
      · have hnone : found.filter (fun member => member.1 = field.name.toList) = [] := by
          rw [List.filter_eq_nil_iff]
          intro other hother
          have hname : other.1 ∈ order.map (·.name.toList) :=
            names_of_holds hrest ▸ List.mem_map_of_mem hother
          obtain ⟨twin, htwin, heq⟩ := List.mem_map.mp hname
          simp only [decide_eq_true_eq, ← heq, String.toList_inj]
          exact fun hsame => hnew (List.mem_map.mpr ⟨twin, htwin, hsame⟩)
        exact ⟨member.2, by simp [memberOf?, hfirst.1, hnone], hfirst.2⟩
      · have hother : member.1 ≠ field.name.toList := by
          rw [hfirst.1, Ne, String.toList_inj]
          exact fun hsame => hnew (List.mem_map.mpr ⟨field, hfield, hsame.symm⟩)
        simpa [memberOf?, hother] using ih hdistinct hfield

private theorem fill_eq {fields : List (Field Scalar α)} {found : List (List Char × Json)}
    (h : ∀ field ∈ fields, ∃ json, memberOf? field.name found = some json ∧
      field.kind.ofJson? json = some (field.get record)) (blank : α) :
    fill found fields blank = some (copy fields record blank) := by
  induction fields generalizing blank with
  | nil => rfl
  | cons field fields ih =>
      obtain ⟨json, hmember, hvalue⟩ := h field List.mem_cons_self
      have hfill := ih (fun other hother => h other (List.mem_cons_of_mem field hother))
        (field.set (field.get record) blank)
      simp [fill, hmember, hvalue, hfill, copy]

theorem read_record_variant {β : Type} {fields order : List (Field Scalar α)} {blank : α}
    {wrap : α → β} {unwrap : β → Option α} {text : List Char}
    (hdistinct : (fields.map (·.name)).Nodup) (horder : order.Perm fields)
    (htext : IsObject (library.ScalarMember record) order text) :
    library.read (.kind (.untagged [.record fields blank wrap unwrap])) text =
      .ok (wrap (copy fields record blank)) := by
  obtain ⟨found, hread, hfound⟩ := exists_read_scalarObject htext
  have hnodup := (horder.map (·.name)).nodup_iff.mpr hdistinct
  have hfill := fill_eq (fun field hfield =>
    exists_memberOf? hnodup (horder.mem_iff.mpr hfield) hfound) blank
  exact library_read_untagged.mpr ⟨_, hread, by simp [Variant.ofJson?, hfill]⟩

theorem read_scalar_variant_object {β γ : Type} {kind : Scalar β} {wrap : β → γ}
    {unwrap : γ → Option β} {order : List (Field Scalar α)} {text : List Char}
    (htext : IsObject (library.ScalarMember record) order text) :
    ∃ fault, library.read (.kind (.untagged [.scalar kind wrap unwrap])) text = .error fault := by
  obtain ⟨found, hfound, -⟩ := exists_read_scalarObject htext
  cases hread : library.read (.kind (.untagged [.scalar kind wrap unwrap])) text with
  | error fault => exact ⟨fault, rfl⟩
  | ok value =>
      obtain ⟨json, hjson, hvalue⟩ := library_read_untagged.mp hread
      obtain ⟨rfl, -⟩ := Prod.mk.inj (Except.ok.inj (hfound.symm.trans hjson))
      have hnone : kind.ofJson? (.object found) = none := by cases kind <;> rfl
      simp [Variant.ofJson?, hnone] at hvalue

end

/-! ## Writing -/

theorem isHex_digitChar {value : Nat} (h : value < 16) : IsHex value.digitChar value :=
  ⟨h, .inl rfl⟩

/-- A control character has only two digits that count. -/
theorem spells_hex {n : Nat} (h : n < 0x20) {body : List Char} {pieces : List Piece}
    (hbody : Spells body pieces) :
    Spells ('\\' :: 'u' :: Text.hex 4 n ++ body) (.codeUnit n :: pieces) := by
  have hdigits : ∀ n < 0x20, Text.hex 4 n =
      [Nat.digitChar 0, Nat.digitChar 0, Nat.digitChar (n / 16), Nat.digitChar (n % 16)] := by
    decide
  have hspells := Spells.codeUnit (isHex_digitChar (by decide : 0 < 16))
    (isHex_digitChar (by decide : 0 < 16)) (isHex_digitChar (by omega : n / 16 < 16))
    (isHex_digitChar (by omega : n % 16 < 16)) hbody
  have hvalue : ((0 * 16 + 0) * 16 + n / 16) * 16 + n % 16 = n := by omega
  rw [hvalue] at hspells
  rw [hdigits n h]
  exact hspells

/-- An escape is spelled as one piece, which stands for the character. -/
theorem spells_escape (c : Char) {body chars : List Char} {pieces : List Piece}
    (hbody : Spells body pieces) (hpieces : Means pieces chars) :
    ∃ piece, Spells (escape c ++ body) (piece :: pieces) ∧
      Means (piece :: pieces) (c :: chars) := by
  unfold escape
  split
  case h_8 hquote hbackslash _ _ _ _ _ =>
    split
    · rename_i hcontrol
      have hsmall : c.toNat < 0x20 := hcontrol
      exact ⟨.codeUnit c.toNat, spells_hex hsmall hbody, .codeUnit (by omega) hpieces⟩
    · rename_i hcontrol
      exact ⟨.char c, .char hcontrol hquote hbackslash hbody, .char hpieces⟩
  all_goals exact ⟨.char _, .escape (by decide) hbody, .char hpieces⟩

private theorem spells_flatMap_escape (chars : List Char) :
    ∃ pieces, Spells (chars.flatMap escape) pieces ∧ Means pieces chars := by
  induction chars with
  | nil => exact ⟨[], .nil, .nil⟩
  | cons c chars ih =>
      obtain ⟨pieces, hbody, hpieces⟩ := ih
      obtain ⟨piece, hspells, hmeans⟩ := spells_escape c hbody hpieces
      exact ⟨piece :: pieces, hspells, hmeans⟩

theorem quotes_quote (text : String) : Quotes (quote text) text.toList := by
  obtain ⟨pieces, hbody, hpieces⟩ := spells_flatMap_escape text.toList
  exact .intro hbody hpieces

theorem names_quote (name : String) {IsValue : List Char → Prop} {value : List Char}
    (hvalue : IsValue value) : Names name.toList IsValue (quote name ++ ':' :: value) := by
  simpa using Names.intro blank_nil (quotes_quote name) blank_nil blank_nil hvalue blank_nil

section

universe u

variable {α : Type u} {IsMember : α → List Char → Prop} {write : α → String × List Char}

private theorem isMembers_intercalate {entries : List α} (hsome : entries ≠ [])
    (h : ∀ entry ∈ entries, IsMember entry (quote (write entry).1 ++ ':' :: (write entry).2)) :
    IsMembers IsMember entries ([','].intercalate ((entries.map write).map fun (name, written) =>
      quote name ++ ':' :: written)) := by
  induction entries with
  | nil => contradiction
  | cons entry entries ih =>
      have hentry := h entry List.mem_cons_self
      cases entries with
      | nil => simpa using IsMembers.last hentry
      | cons next entries =>
          have hmore := ih (by simp) fun other hother => h other (List.mem_cons_of_mem entry hother)
          simpa using IsMembers.more hentry hmore

theorem isObject_writeObject {entries : List α}
    (h : ∀ entry ∈ entries, IsMember entry (quote (write entry).1 ++ ':' :: (write entry).2)) :
    IsObject IsMember entries (writeObject (entries.map write)) := by
  cases entries with
  | nil => exact .empty blank_nil
  | cons entry entries => exact .members (isMembers_intercalate (by simp) h)

end

section

variable {α β : Type} {value : α}

theorem write_next_variant {variant : Variant α} (variants : List (Variant α))
    (hother : variant.holds value = false) :
    library.write (.kind (.untagged (variant :: variants))) value =
      library.write (.kind (.untagged variants)) value := by
  have hnone : variant.write? value = none := by
    cases variant <;> simp_all [Variant.holds, Variant.write?]
  simp [library, Declared.write, Kind.write, hnone]

theorem write_scalar_variant {unwrap : α → Option β} {inner : β} (kind : Scalar β) (wrap : β → α)
    (variants : List (Variant α)) (hvalue : unwrap value = some inner) :
    library.write (.kind (.untagged (.scalar kind wrap unwrap :: variants))) value =
      library.write (.kind (.scalar kind)) inner := by
  simp [library, Declared.write, Kind.write, Variant.write?, hvalue]

theorem write_record_variant {unwrap : α → Option β} {record : β} (fields : List (Field Scalar β))
    (blank : β) (wrap : β → α) (variants : List (Variant α)) (hvalue : unwrap value = some record) :
    IsObject (fun field => Names field.name.toList
        (· = library.write (.kind (.scalar field.kind)) (field.get record)))
      fields (library.write (.kind (.untagged (.record fields blank wrap unwrap :: variants)))
        value) := by
  have hwrite : library.write (.kind (.untagged (.record fields blank wrap unwrap :: variants)))
      value = writeObject (fields.map fun field =>
        (field.name, field.kind.write (field.get record))) := by
    simp [library, Declared.write, Kind.write, Variant.write?, hvalue]
  rw [hwrite]
  exact isObject_writeObject fun field _ => names_quote field.name rfl

end

theorem library_conforms : library.Conforms where
  read_blank := read_blank
  read_u32 := read_u32
  read_u64 := read_u64
  read_bool := read_bool
  read_string := read_string
  read_empty := read_empty
  read_member := read_member
  read_unknown := read_unknown
  read_first_variant := read_first_variant
  read_next_variant := read_next_variant
  read_scalar_variant := read_scalar_variant
  read_scalar_variant_object := read_scalar_variant_object
  read_record_variant := read_record_variant
  write_u32 _ := rfl
  write_u64 _ := rfl
  write_bool _ := rfl
  write_string := quotes_quote
  write_record _ _ _ := isObject_writeObject fun field _ => names_quote field.name rfl
  write_next_variant := write_next_variant
  write_scalar_variant := write_scalar_variant
  write_record_variant := write_record_variant

end Wordmill.Json
