import Mathlib.Data.List.Forall2
import Wordmill.Proofs.Json.Scanning

/-!
# Values that are passed over

Whatever the grammar calls a value, the reader that wants nothing of it comes out
right behind it: no nesting is too deep, no number too large, and half a
surrogate pair does no harm.
-/

namespace Wordmill.Json

/-- What reading comes to that has got so far. -/
def proceed (purpose : Purpose) : Progress → List Token → Except Fault (Json × List Token)
  | .done value, ts => .ok (value, ts)
  | .reading frames expected, ts => readFrom purpose frames expected ts

theorem readFrom_cons {purpose : Purpose} {frames : List Frame} {expected : Expected}
    {token : Token} {progress : Progress} (ts : List Token)
    (h : readToken purpose frames expected token = .ok progress) :
    readFrom purpose frames expected (token :: ts) = proceed purpose progress ts := by
  simp only [readFrom, h]
  cases progress <;> rfl

theorem readToken_firstItem {purpose : Purpose} {frames : List Frame} {token : Token}
    (h : token ≠ .closeBracket) :
    readToken purpose frames .firstItem token = readToken purpose frames .value token := by
  cases token <;> first | rfl | contradiction

theorem readToken_firstKey {purpose : Purpose} {frames : List Frame} {token : Token}
    (h : token ≠ .closeBrace) :
    readToken purpose frames .firstKey token = readToken purpose frames .key token := by
  cases token <;> first | rfl | contradiction

/-- The reader gets behind the tokens of a phrase, whatever is open around it. -/
def PassesOver : Phrase → List Token → Prop
  | .value, ts | .element, ts =>
      ∀ frames rest, ∃ value, readFrom .passOver frames .value (ts ++ rest) =
        proceed .passOver (deliver value frames) rest
  | .elements, ts =>
      ∀ read frames rest, ∃ items, readFrom .passOver (.items read :: frames) .value (ts ++ rest) =
        readFrom .passOver (.items items :: frames) .more rest
  | .member, ts | .members, ts =>
      ∀ read key frames rest, ∃ members,
        readFrom .passOver (.members read key :: frames) .key (ts ++ rest) =
          readFrom .passOver (.members members [] :: frames) .more rest

theorem passesOver_token {token : Token} {value : Json}
    (h : ∀ frames, readToken .passOver frames .value token = .ok (deliver value frames)) :
    PassesOver .value [token] :=
  fun frames rest => ⟨value, readFrom_cons rest (h frames)⟩

/-- What can be read does not begin with a token that cannot be read there. -/
theorem head_of_readFrom {purpose : Purpose} {frames : List Frame} {expected : Expected}
    {ts : List Token} {refused : Token} {fault : Fault} {result : Json × List Token}
    (hrefused : readToken purpose frames expected refused = .error fault)
    (h : readFrom purpose frames expected (ts ++ [refused]) = .ok result) :
    ∃ token more, ts = token :: more ∧ token ≠ refused := by
  cases ts with
  | nil => simp [readFrom, hrefused] at h
  | cons token more =>
      refine ⟨token, more, rfl, ?_⟩
      rintro rfl
      simp [readFrom, hrefused] at h

private theorem PassesOver.elements_head {ts : List Token} (h : PassesOver .elements ts) :
    ∃ token more, ts = token :: more ∧ token ≠ .closeBracket := by
  obtain ⟨items, hitems⟩ := h [] [] [.closeBracket]
  have hdone : readFrom .passOver [.items items] .more [.closeBracket] =
      .ok (.array items.reverse, []) := rfl
  exact head_of_readFrom rfl (hitems.trans hdone)

private theorem PassesOver.members_head {ts : List Token} (h : PassesOver .members ts) :
    ∃ token more, ts = token :: more ∧ token ≠ .closeBrace := by
  obtain ⟨members, hmembers⟩ := h [] [] [] [.closeBrace]
  have hdone : readFrom .passOver [.members members []] .more [.closeBrace] =
      .ok (.object members.reverse, []) := rfl
  exact head_of_readFrom rfl (hmembers.trans hdone)

theorem PassesOver.array {ts : List Token} (h : PassesOver .elements ts) :
    PassesOver .value (.openBracket :: (ts ++ [.closeBracket])) := by
  intro frames rest
  obtain ⟨items, hitems⟩ := h [] frames (.closeBracket :: rest)
  obtain ⟨token, more, rfl, hhead⟩ := h.elements_head
  have hopen : readToken .passOver frames .value .openBracket =
      .ok (.reading (.items [] :: frames) .firstItem) := rfl
  have hclose : readToken .passOver (.items items :: frames) .more .closeBracket =
      .ok (deliver (.array items.reverse) frames) := rfl
  refine ⟨.array items.reverse, ?_⟩
  calc readFrom .passOver frames .value (.openBracket :: (token :: more ++ [.closeBracket]) ++ rest)
      = readFrom .passOver (.items [] :: frames) .firstItem
          (token :: more ++ .closeBracket :: rest) := by
        rw [List.cons_append, readFrom_cons _ hopen, List.append_assoc]
        rfl
    _ = readFrom .passOver (.items [] :: frames) .value
          (token :: more ++ .closeBracket :: rest) := by
        simp only [List.cons_append, readFrom, readToken_firstItem hhead]
    _ = readFrom .passOver (.items items :: frames) .more (.closeBracket :: rest) := hitems
    _ = proceed .passOver (deliver (.array items.reverse) frames) rest := readFrom_cons rest hclose

theorem PassesOver.object {ts : List Token} (h : PassesOver .members ts) :
    PassesOver .value (.openBrace :: (ts ++ [.closeBrace])) := by
  intro frames rest
  obtain ⟨members, hmembers⟩ := h [] [] frames (.closeBrace :: rest)
  obtain ⟨token, more, rfl, hhead⟩ := h.members_head
  have hopen : readToken .passOver frames .value .openBrace =
      .ok (.reading (.members [] [] :: frames) .firstKey) := rfl
  have hclose : readToken .passOver (.members members [] :: frames) .more .closeBrace =
      .ok (deliver (.object members.reverse) frames) := rfl
  refine ⟨.object members.reverse, ?_⟩
  calc readFrom .passOver frames .value (.openBrace :: (token :: more ++ [.closeBrace]) ++ rest)
      = readFrom .passOver (.members [] [] :: frames) .firstKey
          (token :: more ++ .closeBrace :: rest) := by
        rw [List.cons_append, readFrom_cons _ hopen, List.append_assoc]
        rfl
    _ = readFrom .passOver (.members [] [] :: frames) .key
          (token :: more ++ .closeBrace :: rest) := by
        simp only [List.cons_append, readFrom, readToken_firstKey hhead]
    _ = readFrom .passOver (.members members [] :: frames) .more (.closeBrace :: rest) := hmembers
    _ = proceed .passOver (deliver (.object members.reverse) frames) rest :=
        readFrom_cons rest hclose

theorem PassesOver.lastElement {ts : List Token} (h : PassesOver .element ts) :
    PassesOver .elements ts := by
  intro read frames rest
  obtain ⟨value, hvalue⟩ := h (.items read :: frames) rest
  exact ⟨value :: read, hvalue⟩

theorem PassesOver.moreElements {ts more : List Token} (h : PassesOver .element ts)
    (hmore : PassesOver .elements more) : PassesOver .elements (ts ++ .comma :: more) := by
  intro read frames rest
  obtain ⟨items, hitems⟩ := h.lastElement read frames (.comma :: (more ++ rest))
  obtain ⟨others, hothers⟩ := hmore items frames rest
  have hcomma : readToken .passOver (.items items :: frames) .more .comma =
      .ok (.reading (.items items :: frames) .value) := rfl
  exact ⟨others, by
    rw [List.append_assoc, List.cons_append, hitems, readFrom_cons _ hcomma]
    exact hothers⟩

theorem PassesOver.member {ts : List Token} (h : PassesOver .element ts) (pieces : List Piece) :
    PassesOver .member (.text pieces .complete :: .colon :: ts) := by
  intro read key frames rest
  obtain ⟨value, hvalue⟩ := h (.members read [] :: frames) rest
  have hkey : readToken .passOver (.members read key :: frames) .key (.text pieces .complete) =
      .ok (.reading (.members read [] :: frames) .colon) := rfl
  have hcolon : readToken .passOver (.members read [] :: frames) .colon .colon =
      .ok (.reading (.members read [] :: frames) .value) := rfl
  refine ⟨([], value) :: read, ?_⟩
  rw [List.cons_append, readFrom_cons _ hkey, List.cons_append]
  exact (readFrom_cons _ hcolon).trans hvalue

theorem PassesOver.moreMembers {ts more : List Token} (h : PassesOver .member ts)
    (hmore : PassesOver .members more) : PassesOver .members (ts ++ .comma :: more) := by
  intro read key frames rest
  obtain ⟨members, hmembers⟩ := h read key frames (.comma :: (more ++ rest))
  obtain ⟨others, hothers⟩ := hmore members [] frames rest
  have hcomma : readToken .passOver (.members members [] :: frames) .more .comma =
      .ok (.reading (.members members [] :: frames) .key) := rfl
  exact ⟨others, by
    rw [List.append_assoc, List.cons_append, hmembers, readFrom_cons _ hcomma]
    exact hothers⟩

theorem exists_passesOver {phrase : Phrase} {text : List Char} (h : Derives phrase text) :
    ∃ ts, Scans text ts ∧ PassesOver phrase ts := by
  induction h with
  | null => exact ⟨[.null], scans_null, passesOver_token fun _ => rfl⟩
  | true => exact ⟨[.bool true], scans_bool true, passesOver_token fun _ => rfl⟩
  | false => exact ⟨[.bool false], scans_bool false, passesOver_token fun _ => rfl⟩
  | number htext =>
      obtain ⟨number, hscan⟩ := scans_number htext
      exact ⟨[.number number], hscan, passesOver_token fun _ => rfl⟩
  | @text _ pieces hbody =>
      exact ⟨[.text pieces .complete], scans_string hbody, passesOver_token fun _ => rfl⟩
  | emptyArray hblank =>
      refine ⟨[.openBracket, .closeBracket],
        .cons .openBracket ((scans_blank hblank).append_cons .closeBracket scans_nil), ?_⟩
      exact fun frames rest => ⟨.array [], readFrom_cons rest rfl⟩
  | array _ ih =>
      obtain ⟨ts, hscan, hpass⟩ := ih
      exact ⟨_, .cons .openBracket (hscan.append_cons .closeBracket scans_nil), hpass.array⟩
  | emptyObject hblank =>
      refine ⟨[.openBrace, .closeBrace],
        .cons .openBrace ((scans_blank hblank).append_cons .closeBrace scans_nil), ?_⟩
      exact fun frames rest => ⟨.object [], readFrom_cons rest rfl⟩
  | object _ ih =>
      obtain ⟨ts, hscan, hpass⟩ := ih
      exact ⟨_, .cons .openBrace (hscan.append_cons .closeBrace scans_nil), hpass.object⟩
  | element hbefore _ hafter ih =>
      obtain ⟨ts, hscan, hpass⟩ := ih
      exact ⟨ts, (hscan.blank_append hbefore).append_blank hafter, hpass⟩
  | lastElement _ ih =>
      obtain ⟨ts, hscan, hpass⟩ := ih
      exact ⟨ts, hscan, hpass.lastElement⟩
  | moreElements _ _ ih ihmore =>
      obtain ⟨ts, hscan, hpass⟩ := ih
      obtain ⟨more, hscanMore, hpassMore⟩ := ihmore
      exact ⟨_, hscan.append_cons .comma hscanMore, hpass.moreElements hpassMore⟩
  | @member before key middle element pieces hbefore hkey hmiddle _ ih =>
      obtain ⟨ts, hscan, hpass⟩ := ih
      have hname := ((scans_string hkey).blank_append hbefore).append_blank hmiddle
      refine ⟨_, ?_, hpass.member pieces⟩
      simpa using hname.append_cons .colon hscan
  | lastMember _ ih =>
      obtain ⟨ts, hscan, hpass⟩ := ih
      exact ⟨ts, hscan, hpass⟩
  | moreMembers _ _ ih ihmore =>
      obtain ⟨ts, hscan, hpass⟩ := ih
      obtain ⟨more, hscanMore, hpassMore⟩ := ihmore
      exact ⟨_, hscan.append_cons .comma hscanMore, hpass.moreMembers hpassMore⟩

/-- Reading for nothing leaves exactly what stands behind the value. -/
theorem read_passOver {ts : List Token} (h : PassesOver .value ts) (rest : List Token) :
    ∃ value, read .passOver (ts ++ rest) = .ok (value, rest) :=
  h [] rest

/-! ## What can be read -/

inductive Frame.Alike : Frame → Frame → Prop where
  | items (read other : List Json) : Alike (.items read) (.items other)
  | members (read other : List (List Char × Json)) (key name : List Char) :
      Alike (.members read key) (.members other name)

/-- Two readers stand at the same place, whatever they have read. -/
inductive Progress.Alike : Progress → Progress → Prop where
  | done (value other : Json) : Alike (.done value) (.done other)
  | reading {frames others : List Frame} (expected : Expected)
      (hframes : List.Forall₂ Frame.Alike frames others) :
      Alike (.reading frames expected) (.reading others expected)

theorem deliver_alike {frames others : List Frame} (h : List.Forall₂ Frame.Alike frames others)
    (value other : Json) : (deliver value frames).Alike (deliver other others) := by
  cases h with
  | nil => exact .done value other
  | cons hframe hframes =>
      cases hframe with
      | items => exact .reading .more (.cons (.items ..) hframes)
      | members => exact .reading .more (.cons (.members ..) hframes)

theorem ending_of_joinPieces {ending : Ending} {read chars : List Char} {pieces : List Piece}
    (h : joinPieces ending read pieces = .ok chars) : ending = .complete := by
  fun_induction joinPieces ending read pieces <;> simp_all

private theorem scalar_passOver {token : Token} {value : Json}
    (h : token.scalar .read = .ok value) :
    ∃ other, token.scalar .passOver = .ok other := by
  cases token with
  | text pieces ending =>
      simp only [Token.scalar] at h
      split at h
      · contradiction
      · rename_i hjoin
        rw [ending_of_joinPieces hjoin]
        exact ⟨.null, rfl⟩
  | null => exact ⟨.null, rfl⟩
  | bool value => exact ⟨.bool value, rfl⟩
  | number => exact ⟨.null, rfl⟩
  | _ => contradiction

section

variable {frames others : List Frame} {progress : Progress}

private theorem startValue_scalar {token : Token} (hbracket : token ≠ .openBracket)
    (hbrace : token ≠ .openBrace) (purpose : Purpose) (frames : List Frame) :
    startValue purpose frames token =
      (token.scalar purpose).map fun value => deliver value frames := by
  unfold startValue
  split
  · contradiction
  · contradiction
  · cases token.scalar purpose with
    | error fault => rfl
    | ok value => rfl

theorem startValue_alike {token : Token} (hframes : List.Forall₂ Frame.Alike frames others)
    (h : startValue .read frames token = .ok progress) :
    ∃ other, startValue .passOver others token = .ok other ∧ progress.Alike other := by
  have hopen {frame other : Frame} {expected : Expected} (halike : frame.Alike other)
      (h : openFrame .read frames frame expected = .ok progress) :
      ∃ next, openFrame .passOver others other expected = .ok next ∧ progress.Alike next := by
    unfold openFrame at h
    split at h
    · contradiction
    · obtain rfl := Except.ok.inj h
      exact ⟨_, rfl, .reading expected (.cons halike hframes)⟩
  by_cases hbracket : token = .openBracket
  · subst hbracket
    exact hopen (.items ..) h
  by_cases hbrace : token = .openBrace
  · subst hbrace
    exact hopen (.members ..) h
  rw [startValue_scalar hbracket hbrace] at h ⊢
  cases hvalue : token.scalar .read with
  | error fault =>
      rw [hvalue] at h
      contradiction
  | ok value =>
      rw [hvalue] at h
      obtain rfl := Except.ok.inj h
      obtain ⟨other, hother⟩ := scalar_passOver hvalue
      rw [hother]
      exact ⟨_, rfl, deliver_alike hframes value other⟩

theorem readKey_alike {token : Token} (hframes : List.Forall₂ Frame.Alike frames others)
    (h : readKey .read frames token = .ok progress) :
    ∃ other, readKey .passOver others token = .ok other ∧ progress.Alike other := by
  cases hframes with
  | nil => cases token <;> contradiction
  | cons hframe hframes =>
      cases hframe with
      | items => cases token <;> contradiction
      | members =>
          cases token with
          | text pieces ending =>
              simp only [readKey, Token.scalar] at h
              split at h
              · contradiction
              · rename_i hkey
                split at hkey
                · contradiction
                · rename_i hjoin
                  obtain rfl := ending_of_joinPieces hjoin
                  obtain rfl := Except.ok.inj h
                  exact ⟨_, rfl, .reading .colon (.cons (.members ..) hframes)⟩
              · rename_i hother hkey
                split at hkey
                · contradiction
                · exact absurd (Except.ok.inj hkey).symm (hother _)
          | _ => contradiction

theorem readMore_alike {token : Token} (hframes : List.Forall₂ Frame.Alike frames others)
    (h : readMore frames token = .ok progress) :
    ∃ other, readMore others token = .ok other ∧ progress.Alike other := by
  cases hframes with
  | nil => cases token <;> contradiction
  | cons hframe hframes =>
      cases hframe with
      | items read other =>
          cases token with
          | closeBracket =>
              obtain rfl := Except.ok.inj h
              exact ⟨_, rfl, deliver_alike hframes ..⟩
          | comma =>
              obtain rfl := Except.ok.inj h
              exact ⟨_, rfl, .reading .value (.cons (.items ..) hframes)⟩
          | _ => contradiction
      | members =>
          cases token with
          | closeBrace =>
              obtain rfl := Except.ok.inj h
              exact ⟨_, rfl, deliver_alike hframes ..⟩
          | comma =>
              obtain rfl := Except.ok.inj h
              exact ⟨_, rfl, .reading .key (.cons (.members ..) hframes)⟩
          | _ => contradiction

theorem readToken_alike {expected : Expected} {token : Token}
    (hframes : List.Forall₂ Frame.Alike frames others)
    (h : readToken .read frames expected token = .ok progress) :
    ∃ other, readToken .passOver others expected token = .ok other ∧ progress.Alike other := by
  cases expected with
  | value => exact startValue_alike hframes h
  | firstItem =>
      by_cases hclose : token = .closeBracket
      · subst hclose
        exact readMore_alike hframes h
      · rw [readToken_firstItem hclose] at h ⊢
        exact startValue_alike hframes h
  | firstKey =>
      by_cases hclose : token = .closeBrace
      · subst hclose
        exact readMore_alike hframes h
      · rw [readToken_firstKey hclose] at h ⊢
        exact readKey_alike hframes h
  | key => exact readKey_alike hframes h
  | colon =>
      cases token with
      | colon =>
          obtain rfl := Except.ok.inj h
          exact ⟨_, rfl, .reading .value hframes⟩
      | _ => contradiction
  | more => exact readMore_alike hframes h

private theorem readFrom_alike {expected : Expected} {ts rest : List Token} {value : Json}
    (hframes : List.Forall₂ Frame.Alike frames others)
    (h : readFrom .read frames expected ts = .ok (value, rest)) :
    ∃ other, readFrom .passOver others expected ts = .ok (other, rest) := by
  induction ts generalizing frames others expected with
  | nil => contradiction
  | cons token ts ih =>
      simp only [readFrom] at h
      split at h
      · contradiction
      · rename_i done hdone
        obtain ⟨other, hother, halike⟩ := readToken_alike hframes hdone
        cases halike with
        | done _ other =>
            obtain ⟨rfl, rfl⟩ := Prod.mk.inj (Except.ok.inj h)
            exact ⟨other, by simp only [readFrom, hother]⟩
      · rename_i hreading
        obtain ⟨other, hother, halike⟩ := readToken_alike hframes hreading
        cases halike with
        | reading expected hframes =>
            obtain ⟨result, hresult⟩ := ih hframes h
            exact ⟨result, by simp only [readFrom, hother, hresult]⟩

end

/-- What can be read can be passed over, and ends at the same place. -/
theorem rest_of_read {ts rest after : List Token} {value : Json} (hts : PassesOver .value ts)
    (h : read .read (ts ++ rest) = .ok (value, after)) : after = rest := by
  obtain ⟨passed, hpassed⟩ := read_passOver hts rest
  obtain ⟨other, hother⟩ := readFrom_alike .nil h
  have hsame := hother.symm.trans hpassed
  exact (Prod.mk.inj (Except.ok.inj hsame)).2

end Wordmill.Json
