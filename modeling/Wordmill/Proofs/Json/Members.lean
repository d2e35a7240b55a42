import Wordmill.Json.Library
import Wordmill.Proofs.Json.PassingOver
import Wordmill.Proofs.Json.Scalars

/-!
# The members of a record

A reader takes a value and leaves what stands behind it.  A member that it takes
changes the draft in one field at most, and which fields had been read before
matters only to a member of the same name.
-/

namespace Wordmill.Json

/-! ## Values in front of a rest -/

private theorem readFrom_append {purpose : Purpose} {frames : List Frame} {expected : Expected}
    {ts after : List Token} {value : Json}
    (h : readFrom purpose frames expected ts = .ok (value, after)) (rest : List Token) :
    readFrom purpose frames expected (ts ++ rest) = .ok (value, after ++ rest) := by
  induction ts generalizing frames expected with
  | nil => contradiction
  | cons token ts ih =>
      simp only [List.cons_append, readFrom] at h ⊢
      split at h
      · contradiction
      · obtain ⟨rfl, rfl⟩ := Prod.mk.inj (Except.ok.inj h)
        rfl
      · exact ih h

theorem readScalar_eq_ok_iff {ts rest : List Token} {value : Json} :
    readScalar ts = .ok (value, rest) ↔
      ∃ token, ts = token :: rest ∧ token.scalar .read = .ok value := by
  constructor
  · intro h
    unfold readScalar at h
    split at h
    · contradiction
    · contradiction
    · contradiction
    · split at h
      · contradiction
      · rename_i htoken
        obtain ⟨rfl, rfl⟩ := Prod.mk.inj (Except.ok.inj h)
        exact ⟨_, rfl, htoken⟩
  · rintro ⟨token, rfl, htoken⟩
    cases token with
    | openBrace => contradiction
    | openBracket => contradiction
    | _ => simp [readScalar, htoken]

/-- A token that is a scalar is a whole value. -/
theorem readToken_scalar {token : Token} {value : Json} (h : token.scalar .read = .ok value)
    (frames : List Frame) :
    readToken .read frames .value token = .ok (deliver value frames) := by
  cases token with
  | openBrace => contradiction
  | openBracket => contradiction
  | _ => simp [readToken, startValue, h]

namespace Kind

variable {α : Type} {kind : Kind α}

theorem read_json {ts rest : List Token} {value : Json} (h : kind.json ts = .ok (value, rest)) :
    Json.read .read ts = .ok (value, rest) := by
  cases kind with
  | scalar =>
      obtain ⟨token, rfl, htoken⟩ := readScalar_eq_ok_iff.mp h
      exact readFrom_cons rest (readToken_scalar htoken [])
  | untagged => exact h

private theorem json_append {ts after : List Token} {value : Json}
    (h : kind.json ts = .ok (value, after))
    (rest : List Token) : kind.json (ts ++ rest) = .ok (value, after ++ rest) := by
  cases kind with
  | scalar =>
      obtain ⟨token, rfl, htoken⟩ := readScalar_eq_ok_iff.mp h
      exact readScalar_eq_ok_iff.mpr ⟨token, rfl, htoken⟩
  | untagged => exact readFrom_append h rest

theorem read_eq_ok_iff {ts rest : List Token} {value : α} :
    kind.read ts = .ok (value, rest) ↔
      ∃ json, kind.json ts = .ok (json, rest) ∧ kind.ofJson? json = some value := by
  constructor
  · intro h
    unfold Kind.read at h
    split at h
    · contradiction
    · rename_i hjson
      split at h
      · contradiction
      · rename_i hvalue
        obtain ⟨rfl, rfl⟩ := Prod.mk.inj (Except.ok.inj h)
        exact ⟨_, hjson, hvalue⟩
  · rintro ⟨json, hjson, hvalue⟩
    simp [Kind.read, hjson, hvalue]

theorem read_append {ts after : List Token} {value : α} (h : kind.read ts = .ok (value, after))
    (rest : List Token) : kind.read (ts ++ rest) = .ok (value, after ++ rest) := by
  obtain ⟨json, hjson, hvalue⟩ := read_eq_ok_iff.mp h
  exact read_eq_ok_iff.mpr ⟨json, json_append hjson rest, hvalue⟩

theorem rest_of_read {ts rest after : List Token} {value : α} (hts : PassesOver .value ts)
    (h : kind.read (ts ++ rest) = .ok (value, after)) : after = rest := by
  obtain ⟨json, hjson, -⟩ := read_eq_ok_iff.mp h
  exact Json.rest_of_read hts (read_json hjson)

end Kind

/-! ## Names -/

theorem scans_names {name text : List Char} {IsValue : List Char → Prop}
    (Reads : List Token → Prop) (h : Names name IsValue text)
    (hvalue : ∀ value, IsValue value → ∃ ts, Scans value ts ∧ Reads ts) :
    ∃ pieces ts, Scans text (.text pieces .complete :: .colon :: ts) ∧
      joinPieces .complete [] pieces = .ok name ∧ Reads ts := by
  obtain @⟨before, key, middle, between, value, after, hbefore, hkey, hmiddle, hbetween, htext,
    hafter⟩ := h
  obtain ⟨pieces, hscanKey, hpieces⟩ := scans_quotes hkey
  obtain ⟨ts, hscan, hreads⟩ := hvalue value htext
  have hfront := (hscanKey.blank_append hbefore).append_blank hmiddle
  have hback := (hscan.blank_append hbetween).append_blank hafter
  exact ⟨pieces, ts, hfront.append_cons .colon hback, hpieces, hreads⟩

section

variable {α : Type} {fields : List (Field Kind α)}

theorem fieldOf?_name {field : Field Kind α} (hdistinct : (fields.map (·.name)).Nodup)
    (hfield : field ∈ fields) : fieldOf? fields field.name.toList = some field := by
  induction fields with
  | nil => contradiction
  | cons first fields ih =>
      obtain ⟨hnew, hdistinct⟩ := List.nodup_cons.mp hdistinct
      obtain rfl | hfield := List.mem_cons.mp hfield
      · exact List.find?_cons_of_pos (by simp)
      · have hne : first.name ≠ field.name := by
          rintro heq
          exact hnew (List.mem_map.mpr ⟨field, hfield, heq.symm⟩)
        have hother : first.name.toList ≠ field.name.toList := by
          simpa [String.toList_inj] using hne
        simpa [fieldOf?, hother] using ih hdistinct hfield

private theorem name_of_fieldOf? {field : Field Kind α} {name : List Char}
    (h : fieldOf? fields name = some field) : field.name.toList = name := by
  simpa using List.find?_some h

/-! ## Drafts -/

/-- The draft with more names that count as read. -/
def Draft.saw (draft : Draft α) (names : List String) : Draft α :=
  ⟨draft.value, draft.seen ++ names⟩

private theorem Draft.read_saw {draft next : Draft α} {field : Field Kind α} {ts rest : List Token}
    (h : draft.read field ts = .ok (next, rest)) (names : List String) :
    (draft.saw names).read field ts = .ok (next.saw names, rest) := by
  unfold Draft.read at h ⊢
  split at h
  · contradiction
  · obtain ⟨rfl, rfl⟩ := Prod.mk.inj (Except.ok.inj h)
    rfl

theorem Draft.rest_of_read {draft next : Draft α} {field : Field Kind α}
    {ts rest after : List Token} (hts : PassesOver .value ts)
    (h : draft.read field (ts ++ rest) = .ok (next, after)) : after = rest := by
  unfold Draft.read at h
  split at h
  · contradiction
  · rename_i hread
    obtain ⟨rfl, rfl⟩ := Prod.mk.inj (Except.ok.inj h)
    exact Kind.rest_of_read hts hread

/-! ## Members -/

theorem readMember_field {draft : Draft α} {field : Field Kind α} {name : List Char}
    {pieces : List Piece} (hpieces : joinPieces .complete [] pieces = .ok name)
    (hfield : fieldOf? fields name = some field) (hnew : field.name ∉ draft.seen)
    (ts : List Token) :
    readMember fields draft (.text pieces .complete :: .colon :: ts) = draft.read field ts := by
  simp [readMember, hpieces, hfield, hnew]

theorem readMember_unknown {draft : Draft α} {name : List Char} {pieces : List Piece}
    {ts : List Token} (hpieces : joinPieces .complete [] pieces = .ok name)
    (hfield : fieldOf? fields name = none) (hts : PassesOver .value ts) (rest : List Token) :
    readMember fields draft (.text pieces .complete :: .colon :: (ts ++ rest)) =
      .ok (draft, rest) := by
  obtain ⟨value, hvalue⟩ := read_passOver hts rest
  simp [readMember, hpieces, hfield, hvalue]

/-- Other names that count as read make no difference. -/
theorem readMember_saw {draft next : Draft α} {name : List Char} {pieces : List Piece}
    {ts rest after : List Token} {names : List String}
    (hpieces : joinPieces .complete [] pieces = .ok name) (hts : PassesOver .value ts)
    (hother : ∀ other ∈ names, other.toList ≠ name)
    (h : readMember fields draft (.text pieces .complete :: .colon :: (ts ++ rest)) =
      .ok (next, after)) :
    after = rest ∧
      readMember fields (draft.saw names) (.text pieces .complete :: .colon :: (ts ++ rest)) =
        .ok (next.saw names, rest) := by
  cases hfield : fieldOf? fields name with
  | none =>
      rw [readMember_unknown hpieces hfield hts] at h ⊢
      obtain ⟨rfl, rfl⟩ := Prod.mk.inj (Except.ok.inj h)
      exact ⟨rfl, rfl⟩
  | some field =>
      have hname := name_of_fieldOf? hfield
      have hnew : field.name ∉ draft.seen := by
        intro hseen
        simp [readMember, hpieces, hfield, hseen] at h
      have hsaw : field.name ∉ (draft.saw names).seen := by
        rw [Draft.saw, List.mem_append]
        rintro (hseen | hseen)
        · exact hnew hseen
        · exact hother _ hseen hname
      rw [readMember_field hpieces hfield hnew] at h
      rw [readMember_field hpieces hfield hsaw]
      obtain rfl := Draft.rest_of_read hts h
      exact ⟨rfl, Draft.read_saw h names⟩

theorem readMembers_closeBrace {draft next : Draft α} {ts rest : List Token}
    (h : readMember fields draft ts = .ok (next, .closeBrace :: rest)) :
    readMembers fields draft ts = .ok (next, rest) := by
  rw [readMembers]
  split <;> simp_all

theorem readMembers_comma {draft next : Draft α} {ts rest : List Token}
    (h : readMember fields draft ts = .ok (next, .comma :: rest)) :
    readMembers fields draft ts = readMembers fields next rest := by
  rw [readMembers]
  split <;> simp_all

theorem exists_readMember {draft : Draft α} {ts : List Token} {result : Draft α × List Token}
    (h : readMembers fields draft ts = .ok result) :
    ∃ next rest, readMember fields draft ts = .ok (next, rest) := by
  cases hmember : readMember fields draft ts with
  | error => rw [readMembers] at h; split at h <;> simp_all
  | ok result => exact ⟨result.1, result.2, rfl⟩

/-- What is read of members stays the same when other names count as read. -/
theorem exists_scans_members {names : List (List Char)} {members : List Char}
    (h : IsMembers (fun name => Names name (Derives .value)) names members) :
    ∃ pieces ts, Scans members (.text pieces .complete :: ts) ∧
      ∀ (fields : List (Field Kind α)) (draft next : Draft α) (seen : List String)
        (rest after : List Token), (∀ other ∈ seen, other.toList ∉ names) →
        readMembers fields draft (.text pieces .complete :: (ts ++ .closeBrace :: rest)) =
          .ok (next, after) →
        readMembers fields (draft.saw seen)
          (.text pieces .complete :: (ts ++ .closeBrace :: rest)) = .ok (next.saw seen, after) := by
  induction h with
  | last hmember =>
      obtain ⟨pieces, ts, hscan, hpieces, hpass⟩ :=
        scans_names (PassesOver .value) hmember fun _ => exists_passesOver
      refine ⟨pieces, .colon :: ts, hscan, fun fields draft next seen rest after hnew hread => ?_⟩
      obtain ⟨middle, more, hmiddle⟩ := exists_readMember hread
      obtain ⟨rfl, hsaw⟩ := readMember_saw hpieces hpass
        (fun other hother heq => hnew other hother (by simp [heq])) hmiddle
      rw [readMembers_closeBrace hmiddle] at hread
      obtain ⟨rfl, rfl⟩ := Prod.mk.inj (Except.ok.inj hread)
      exact readMembers_closeBrace hsaw
  | more hmember _ ih =>
      obtain ⟨pieces, ts, hscan, hpieces, hpass⟩ :=
        scans_names (PassesOver .value) hmember fun _ => exists_passesOver
      obtain ⟨others, more, hscanMore, hmore⟩ := ih
      refine ⟨pieces, .colon :: (ts ++ .comma :: .text others .complete :: more),
        hscan.append_cons .comma hscanMore,
        fun fields draft next seen rest after hnew hread => ?_⟩
      simp only [List.cons_append, List.append_assoc] at hread ⊢
      obtain ⟨middle, left, hmiddle⟩ := exists_readMember hread
      obtain ⟨rfl, hsaw⟩ := readMember_saw hpieces hpass
        (fun other hother heq => hnew other hother (by simp [heq])) hmiddle
      rw [readMembers_comma hmiddle] at hread
      rw [readMembers_comma hsaw]
      exact hmore fields middle next seen rest after
        (fun other hother hin => hnew other hother (List.mem_cons_of_mem _ hin)) hread

end

end Wordmill.Json
