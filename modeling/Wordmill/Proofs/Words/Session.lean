import Wordmill.Draw.Script
import Wordmill.Proofs.Grammar.Scopes
import Wordmill.Proofs.Words.Sources

/-!
# Sessions

One source serves any number of calls, one after another, until one of them ends
in a panic.  A call that fails or only compiles asks it for nothing, so that the
other calls get the same words with it and without it.
-/

namespace Wordmill

/-- One use of the source: what to make words of, and how, or the code alone. -/
structure Call where
  grammar : Grammar
  options : Options
  bytecodeOnly : Bool

/-- What comes of a call, and the bounds of the draws that it asked for, oldest first. -/
structure Reply where
  result : Except (Failure WordError) Product
  requests : List (Nat × Nat)

variable {σ τ : Type} [Draw σ] [Draw τ]

def Call.reply (call : Call) (source : σ) : Reply × σ :=
  let (result, recorded) :=
    call.grammar.produce call.options call.bytecodeOnly (Recorded.ofSource source)
  (⟨result, recorded.requests.toList⟩, recorded.source)

/-- The replies to calls that share a source, and the source as they leave it. -/
def session : List Call → σ → List Reply × σ
  | [], source => ([], source)
  | call :: calls, source =>
      let (reply, source) := call.reply source
      match reply.result with
      | .error .panic => ([reply], source)
      | _ =>
          let (replies, source) := session calls source
          (reply :: replies, source)

/-- The call made no words: it only compiled, or it failed. -/
def Call.Idle (call : Call) (reply : Reply) : Prop :=
  call.bytecodeOnly = true ∨ ∃ failure, reply.result = .error failure

/--
`kept` and `rest` are left of the calls and their replies if some idle calls are
dropped.  There is no reply behind a panic, so any calls may come behind it.
-/
inductive Drops : List Call → List Reply → List Call → List Reply → Prop
  | nil : Drops [] [] [] []
  | keep {calls kept : List Call} {replies rest : List Reply} (call : Call) (reply : Reply) :
      Drops calls replies kept rest →
      Drops (call :: calls) (reply :: replies) (call :: kept) (reply :: rest)
  | drop {calls kept : List Call} {replies rest : List Reply} {call : Call} {reply : Reply} :
      call.Idle reply → reply.result ≠ .error .panic → Drops calls replies kept rest →
      Drops (call :: calls) (reply :: replies) kept rest
  | panic {call : Call} {reply : Reply} (calls others : List Call) :
      reply.result = .error .panic → Drops (call :: calls) [reply] (call :: others) [reply]

/-! ## One call -/

/-- Recording aside, a call makes what it makes from the source and leaves it the same. -/
theorem reply_eq_produce (call : Call) (source : σ) :
    ((call.reply source).1.result, (call.reply source).2) =
        call.grammar.produce call.options call.bytecodeOnly source ∧
      ∀ request ∈ (call.reply source).1.requests, request.1 ≤ request.2 := by
  obtain ⟨hresult, hsource, hinOrder⟩ := agrees_produce simulates_recorded
    ⟨rfl, inOrder_ofSource source⟩ call.grammar call.options call.bytecodeOnly
  refine ⟨Prod.ext hresult hsource, ?_⟩
  intro request hrequest
  exact hinOrder request (Array.mem_toList_iff.mp hrequest)

/-- All checks come before the first draw: a failure does not depend on the source. -/
theorem Words.generate_of_error {grammar : Grammar} {options : Options} {source : σ}
    {failure : Failure WordError} (h : (generate grammar options source).1 = .error failure)
    (other : τ) : generate grammar options other = (.error failure, other) := by
  unfold generate at h ⊢
  cases hcheck : checkSyllables options.syllables with
  | error found =>
      simp only [hcheck] at h ⊢
      rw [h]
  | ok checked =>
      simp only [hcheck] at h ⊢
      cases hcode : grammar.compile with
      | error found =>
          simp only [hcode] at h ⊢
          rw [h]
      | ok code =>
          simp only [hcode] at h ⊢
          split at h
          · rename_i hroom
            cases h
            rw [if_pos hroom]
          · contradiction

theorem Grammar.produce_of_error {grammar : Grammar} {options : Options} {bytecodeOnly : Bool}
    {source : σ} {failure : Failure WordError}
    (h : (grammar.produce options bytecodeOnly source).1 = .error failure) (other : τ) :
    grammar.produce options bytecodeOnly other = (.error failure, other) := by
  unfold produce at h ⊢
  cases bytecodeOnly with
  | true =>
      simp only [if_true] at h ⊢
      rw [h]
  | false =>
      simp only [Bool.false_eq_true, if_false] at h ⊢
      cases hgenerate : Words.generate grammar options source with
      | mk result after =>
          rw [hgenerate] at h
          cases result with
          | error found =>
              cases h
              rw [Words.generate_of_error (congrArg Prod.fst hgenerate) other]
          | ok words => contradiction

private theorem Grammar.produce_bytecode (grammar : Grammar) (options : Options) (source : σ)
    (other : τ) :
    grammar.produce options true other =
      ((grammar.produce options true source).1, other) := rfl

theorem Call.reply_of_produce {call : Call} {source : σ}
    {result : Except (Failure WordError) Product} {recorded : Recorded σ}
    (h : call.grammar.produce call.options call.bytecodeOnly (Recorded.ofSource source) =
      (result, recorded)) :
    call.reply source = (⟨result, recorded.requests.toList⟩, recorded.source) := by
  simp only [Call.reply, h]

/-- An idle call replies the same at any other time, and never asks the source. -/
theorem reply_of_idle {call : Call} {source : σ} (h : call.Idle (call.reply source).1) (other : τ) :
    call.reply other = (⟨(call.reply source).1.result, []⟩, other) := by
  have hproduce : call.grammar.produce call.options call.bytecodeOnly (Recorded.ofSource other) =
      ((call.reply source).1.result, Recorded.ofSource other) := by
    rcases h with hbytecode | ⟨e, he⟩
    · simp only [Call.reply, hbytecode]
      exact Grammar.produce_bytecode ..
    · rw [he]
      exact Grammar.produce_of_error he _
  exact Call.reply_of_produce hproduce

/-- To compile is to get code or an error. -/
theorem reply_ne_panic {call : Call} (h : call.bytecodeOnly = true) (source : σ) :
    (call.reply source).1.result ≠ .error .panic := by
  simp only [Call.reply, Grammar.produce, h, if_true]
  cases call.grammar.compile <;> simp

/-! ## Many calls -/

theorem session_of_panic {call : Call} {source : σ}
    (h : (call.reply source).1.result = .error .panic) (calls : List Call) :
    session (call :: calls) source = ([(call.reply source).1], (call.reply source).2) := by
  simp only [session, h]

theorem session_cons {call : Call} {source : σ}
    (h : (call.reply source).1.result ≠ .error .panic) (calls : List Call) :
    session (call :: calls) source =
      ((call.reply source).1 :: (session calls (call.reply source).2).1,
        (session calls (call.reply source).2).2) := by
  rw [session]
  generalize call.reply source = made at h ⊢
  obtain ⟨reply, next⟩ := made
  simp only at h ⊢

private theorem Drops.eq_nil {calls kept : List Call} {rest : List Reply}
    (h : Drops calls [] kept rest) :
    calls = [] ∧ kept = [] ∧ rest = [] := by
  cases h
  exact ⟨rfl, rfl, rfl⟩

private theorem session_of_drops {calls kept : List Call} {source : σ} {replies rest : List Reply}
    (hreplies : (session calls source).1 = replies) (h : Drops calls replies kept rest) :
    session kept source = (rest, (session calls source).2) := by
  induction h generalizing source with
  | nil => rfl
  | @keep calls kept replies rest call reply hdrops ih =>
      by_cases hpanic : (call.reply source).1.result = .error .panic
      · rw [session_of_panic hpanic, List.cons.injEq] at hreplies
        obtain ⟨rfl, rfl⟩ := hreplies
        obtain ⟨rfl, rfl, rfl⟩ := hdrops.eq_nil
        rw [session_of_panic hpanic]
      · rw [session_cons hpanic, List.cons.injEq] at hreplies
        obtain ⟨rfl, hreplies⟩ := hreplies
        rw [session_cons hpanic, session_cons hpanic, ih hreplies]
  | @drop calls kept replies rest call reply hidle hnext _ ih =>
      by_cases hpanic : (call.reply source).1.result = .error .panic
      · rw [session_of_panic hpanic, List.cons.injEq] at hreplies
        obtain ⟨rfl, -⟩ := hreplies
        exact absurd hpanic hnext
      · rw [session_cons hpanic, List.cons.injEq] at hreplies
        obtain ⟨rfl, hreplies⟩ := hreplies
        have hsource : (call.reply source).2 = source :=
          congrArg Prod.snd (reply_of_idle hidle source)
        rw [hsource] at hreplies
        rw [session_cons hpanic, hsource]
        exact ih hreplies
  | @panic call reply calls others hpanic =>
      have hfirst : (call.reply source).1 = reply := by
        by_cases hfound : (call.reply source).1.result = .error .panic
        · rw [session_of_panic hfound] at hreplies
          exact (List.cons.inj hreplies).1
        · rw [session_cons hfound] at hreplies
          exact (List.cons.inj hreplies).1
      subst hfirst
      rw [session_of_panic hpanic, session_of_panic hpanic]

private theorem le_of_mem_session {calls : List Call} {source : σ} :
    ∀ reply ∈ (session calls source).1, ∀ request ∈ reply.requests, request.1 ≤ request.2 := by
  induction calls generalizing source with
  | nil => simp [session]
  | cons call calls ih =>
      intro reply hreply
      have hfirst := (reply_eq_produce call source).2
      by_cases hpanic : (call.reply source).1.result = .error .panic
      · rw [session_of_panic hpanic] at hreply
        obtain rfl := List.mem_singleton.mp hreply
        exact hfirst
      · rw [session_cons hpanic] at hreply
        rcases List.mem_cons.mp hreply with rfl | hreply
        · exact hfirst
        · exact ih reply hreply

/--
A call that fails or only compiles asks for nothing and leaves the source as it
was, and it would do so with any other source.  Any such calls may be dropped
from a session, or put into one, and any calls at all behind a panic: the other
calls have the same replies, and make the same requests.  No request of a session
has its bounds out of order.
-/
theorem session_without_idle (calls : List Call) (source : σ) :
    (∀ call : Call, call.Idle (call.reply source).1 →
      ∀ other : σ, call.reply other = (⟨(call.reply source).1.result, []⟩, other)) ∧
    (∀ kept rest, Drops calls (session calls source).1 kept rest →
      session kept source = (rest, (session calls source).2)) ∧
    (∀ reply ∈ (session calls source).1, ∀ request ∈ reply.requests,
      request.1 ≤ request.2) ∧
    ∀ call : Call, ((call.reply source).1.result, (call.reply source).2) =
      call.grammar.produce call.options call.bytecodeOnly source :=
  ⟨fun _ hidle other => reply_of_idle hidle other, fun _ _ => session_of_drops rfl,
    le_of_mem_session, fun call => (reply_eq_produce call source).1⟩

/-! A call that draws, one whose range of syllables is reversed, and one that only compiles. -/

namespace Call

def letter : Call := ⟨.mk ['k', '/', 'a'] [], ⟨1, .fixed 1, "", true⟩, false⟩

def reversedRange : Call := ⟨.mk ['k', 'a'] [], ⟨1, .range 3 1, "", true⟩, false⟩

def codeOnly : Call := ⟨.mk ['(', 'k', 'a', ')'] [], ⟨1, .range 3 1, "", true⟩, true⟩

def letterPattern : Pattern := .sequence [.choice [.text ['k'], .text ['a']]]

theorem reply_letter (script : Script) :
    letter.reply script =
      let progress := letterPattern.evaluate [] (Recorded.ofSource script)
      (⟨.ok (.words ["".intercalate [progress.latest.output]]),
        progress.latest.source.requests.toList⟩, progress.latest.source.source) := by
  have hfault : compileFault [] letterPattern = none := (compileFault_nil _).trans (by rfl)
  have hwords := Words.generate_root (by rfl : Pattern.parse ['k', '/', 'a'] = .ok letterPattern)
    hfault (rfl : Words.checkSyllables letter.options.syllables = .ok ()) (by decide)
    (Recorded.ofSource script)
  apply reply_of_produce
  rw [Grammar.produce, if_neg (by decide), letter] at *
  rw [hwords]
  rfl

end Call

open Call in
/-- The letters come out the same without the calls that fail or only compile. -/
theorem session_letters :
    reversedRange.reply (Script.mk [1] .low) =
        (⟨.error (.error (.syllableRange 3 1)), []⟩, Script.mk [1] .low) ∧
      session [letter, letter] (Script.mk [2, 1] .low) =
        ([⟨.ok (.words ["a"]), [(1, 2)]⟩, ⟨.ok (.words ["k"]), [(1, 2)]⟩],
          (session [letter, codeOnly, reversedRange, letter] (Script.mk [2, 1] .low)).2) := by
  have hreversed : reversedRange.Idle (reversedRange.reply (Script.mk [2, 1] .low)).1 :=
    .inr ⟨_, rfl⟩
  obtain ⟨hidle, hdrops, -, -⟩ :=
    session_without_idle [letter, codeOnly, reversedRange, letter] (Script.mk [2, 1] .low)
  have hfirst : letter.reply (Script.mk [2, 1] .low) =
      (⟨.ok (.words ["a"]), [(1, 2)]⟩, Script.mk [1] .low) := (reply_letter _).trans (by rfl)
  have hcode := hidle codeOnly (.inl rfl) (Script.mk [1] .low)
  have herror := hidle reversedRange hreversed (Script.mk [1] .low)
  have hlast : letter.reply (Script.mk [1] .low) =
      (⟨.ok (.words ["k"]), [(1, 2)]⟩, Script.mk [] .low) := (reply_letter _).trans (by rfl)
  refine ⟨herror, hdrops _ _ ?_⟩
  have hok {products : Product} : (.ok products : Except (Failure WordError) Product) ≠
      .error .panic := nofun
  have hcompiled := reply_ne_panic (rfl : codeOnly.bytecodeOnly = true) (Script.mk [1] .low)
  have hrange : (reversedRange.reply (Script.mk [1] .low)).1.result ≠ .error .panic := by
    rw [herror]
    nofun
  rw [session_cons (hfirst ▸ hok), hfirst, session_cons hcompiled, hcode, session_cons hrange,
    herror, session_cons (hlast ▸ hok), hlast]
  exact .keep _ _ (.drop (.inl rfl) hcompiled (.drop hreversed hrange (.keep _ _ .nil)))

end Wordmill
