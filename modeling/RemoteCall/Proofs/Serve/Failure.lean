import RemoteCall.Namespace.Stock
import RemoteCall.Proofs.Serve.Stream

/-!
# Failures of the host

A call or an assignment that fails in the host is answered with the code and the text of the
failure, and the connection goes on behind the request as after a success. The text is measured when
it is written, behind the consent, the status and the code. One that is longer than the wire carries
stops the answer there, and the request ends with a violation on the side of the server. The texts
that a namespace makes itself are a few words around the path, so that even a path that has come in
over the wire may be too long to be sent back.
-/

namespace RemoteCall

variable {σ : Type}

namespace Operation

/-- The failure that a call or an assignment comes to on a host in this state. -/
def failure? (h : Host σ) (s : σ) : Operation → Option HostError
  | .call path args =>
    match (h.invoke s path args).1 with
    | .ok _ => none
    | .error e => some e
  | .get _ => none
  | .set path key value =>
    match (h.assign s path key value).1 with
    | .ok _ => none
    | .error e => some e

/-- A failure is answered with its code and its text. -/
theorem answer_of_failure? {h : Host σ} {s : σ} {op : Operation} {e : HostError} (f : Format)
    (hfail : op.failure? h s = some e) : op.answer f h s = failureReply f e.code e.message := by
  cases op with
  | call path args =>
    dsimp only [failure?, answer] at hfail ⊢
    cases hinvoke : (h.invoke s path args).1 with
    | ok results => simp [hinvoke] at hfail
    | error e' =>
      simp only [hinvoke, Option.some.injEq] at hfail
      rw [hfail]
  | get path => cases hfail
  | set path key value =>
    dsimp only [failure?, answer] at hfail ⊢
    cases hassign : (h.assign s path key value).1 with
    | ok done => simp [hassign] at hfail
    | error e' =>
      simp only [hassign, Option.some.injEq] at hfail
      rw [hfail]

end Operation

namespace Frame

variable {f : Format} {h : Host σ} {F : Frame f} {s : σ} {e : HostError}

/-- The failure that a host in this state comes to when it is asked for what the frame says. -/
def failure? (h : Host σ) (F : Frame f) (s : σ) : Option HostError :=
  match F.asked h s with
  | (.done op, t) => op.failure? h t
  | (.stop _ _, _) => none

/-- Behind the consent a failure of the host is all that is sent, and nothing of the frame is left.
-/
theorem reply_of_failure? (hfail : F.failure? h s = some e) :
    F.reply h s = .byte Status.ready.toByte ++ failureReply f e.code e.message ∧
      (F.asked h s).1.left = [] := by
  unfold failure? at hfail
  unfold reply
  cases hasked : F.asked h s with
  | mk reading t =>
    rw [hasked] at hfail
    cases reading with
    | done op => exact ⟨congrArg _ (Operation.answer_of_failure? f hfail), rfl⟩
    | stop e left => cases hfail

end Frame

/-- What is sent for a failure: the consent, the status of a failure, its code, and its text behind
the length of the text. -/
def HostError.reply (f : Format) (e : HostError) : List UInt8 :=
  Status.ready.toByte :: 1 :: (f.wordBytes e.code ++
    (f.wordBytes (UInt32.ofNat (Text.bytes e.message).length) ++ Text.bytes e.message))

section

variable {f : Format} {code : UInt32} {message : String} {e : HostError}

/-- A text that fits is sent behind its length. -/
theorem failureReply_of_fits (hfits : Text.Fits message) :
    failureReply f code message = .ofBytes (1 :: (f.wordBytes code ++
      (f.wordBytes (UInt32.ofNat (Text.bytes message).length) ++ Text.bytes message))) := by
  unfold failureReply Emission.text Emission.string
  rw [if_neg (Nat.not_lt_of_le hfits)]
  rfl

/-- A text that does not fit is refused once the code has gone out. -/
theorem failureReply_of_not_fits (hfits : ¬ Text.Fits message) :
    failureReply f code message =
      ⟨1 :: f.wordBytes code, some (.protocol (.oversized (Text.bytes message).length))⟩ := by
  unfold failureReply Emission.text Emission.string
  rw [if_pos (Nat.lt_of_not_le hfits)]
  exact congrArg (fun bytes => (⟨1 :: bytes, _⟩ : Emission)) (List.append_nil _)

/-- A client that is sent a failure for its call raises it. -/
theorem Exchange.call_does_failure {p : Path} {args : List Value} (settings : ClientSettings)
    (hfits : Text.Fits e.message) (hop : (Operation.call p args).Encodable f) :
    Session.Does f (call settings p args) (e.reply f) (.error (.remote e.code e.message))
      ((Operation.call p args).emission f).bytes := by
  have hreply := awaitResults_does_failure (f := f) settings e.code hfits
  rw [failureReply_of_fits hfits] at hreply
  rw [call_eq hop.1]
  exact exchange_does hop hreply

/-- A client that is sent a failure for its assignment raises it. -/
theorem Exchange.set_does_failure {p : Path} {key value : Value}
    (hfits : Text.Fits e.message) (hop : (Operation.set p key value).Encodable f) :
    Session.Does f (set p key value) (e.reply f) (.error (.remote e.code e.message))
      ((Operation.set p key value).emission f).bytes := by
  have hreply := awaitStatus_does_failure (f := f) e.code hfits
  rw [failureReply_of_fits hfits] at hreply
  rw [set_eq]
  exact exchange_does hop hreply

end

open Serving in
/-- On a line that takes everything, a request that fails in the host is taken off the line as a
whole, and whatever request is next is served. The request ends well exactly when the text of the
failure is short enough for the wire. Then the failure is what is sent, and a client that has sent a
call or an assignment and is sent this raises the failure with its code and its text. Otherwise the
answer stops behind the code, and the server reports a violation. -/
theorem serveOne_hostFailure_iff {f own : Format} (h : Host σ) (F : Frame f) (s : Served σ)
    (e : HostError) (rest : List UInt8) (after : List Arrival) (hs : s.conn.Serves own f)
    (hin : s.conn.line.inbound.Brings (F.bytes ++ rest) after)
    (hfail : F.failure? h s.host = some e) :
    ∃ result later, serveOne h s = (result, ⟨later, F.effect h s.host⟩) ∧
      later.line.inbound.Brings rest after ∧
      (∀ (r : Request f) (more : List UInt8), rest = r.bytes ++ more →
        ∃ last, serveOne h ⟨later, F.effect h s.host⟩ =
            ((r.reply own h (F.effect h s.host)).outcome, ⟨last, r.effect h (F.effect h s.host)⟩) ∧
          last.line.inbound.Brings more after ∧
          last.line.written = later.line.written ++ (r.reply own h (F.effect h s.host)).bytes) ∧
      (result = .ok () ↔ Text.Fits e.message) ∧
      (Text.Fits e.message →
        later.line.written = s.conn.line.written ++ e.reply f ∧
        (∀ settings p args, (Operation.call p args).Encodable f →
          Session.Does f (Exchange.call settings p args) (e.reply f)
            (.error (.remote e.code e.message)) ((Operation.call p args).emission f).bytes) ∧
        ∀ p key value, (Operation.set p key value).Encodable f →
          Session.Does f (Exchange.set p key value) (e.reply f)
            (.error (.remote e.code e.message)) ((Operation.set p key value).emission f).bytes) ∧
      (¬ Text.Fits e.message →
        result = .error (.protocol (.oversized (Text.bytes e.message).length)) ∧
        later.line.written =
          s.conn.line.written ++ Status.ready.toByte :: 1 :: f.wordBytes e.code) := by
  obtain ⟨later, hserve, hlater, hnext, hwritten⟩ := serveOne_replies h hs hin
  obtain ⟨hreply, hleft⟩ := Frame.reply_of_failure? hfail
  rw [hleft, List.nil_append] at hnext
  rw [hreply] at hserve hwritten
  refine ⟨_, later, hserve, hnext, ?_, ?_, ?_, ?_⟩
  · rintro r more rfl
    obtain ⟨last, hagain, -, hmore, hsent⟩ := serveOne_request h r
      (s := ⟨later, F.effect h s.host⟩) hlater hnext
    exact ⟨last, hagain, hmore, hsent⟩
  · rw [Emission.outcome_eq_ok, Emission.append_failure_eq_none, failureReply_failure_eq_none]
    exact and_iff_right rfl
  · intro hfits
    rw [failureReply_of_fits hfits] at hwritten
    exact ⟨hwritten, fun settings p args => Exchange.call_does_failure settings hfits,
      fun p key value => Exchange.set_does_failure hfits⟩
  · intro hfits
    rw [failureReply_of_not_fits hfits] at hwritten ⊢
    exact ⟨rfl, hwritten⟩

/-- A call of `f` without arguments. -/
def plea : Frame .host := .call ⟨Text.bytes "f", by decide⟩ [] (by decide)

/-- A server that has one call to serve, of a function that fails with this text. -/
def failing (message : String) : Served (Namespace Stock) :=
  ⟨.ofLine (.ofBytes plea.bytes) .host, Namespace.empty.register "f" (.fail (.failed 2 message))⟩

/-- The failing server serves in the format of its host. -/
theorem failing_serves (message : String) : (failing message).conn.Serves .host .host :=
  ⟨⟨rfl, rfl⟩, rfl, rfl⟩

/-- The call is all that the failing server has to read. -/
theorem failing_brings (message : String) :
    (failing message).conn.line.inbound.Brings (plea.bytes ++ []) [] := by
  rw [List.append_nil]
  exact Inbound.brings_ofBytes _

/-- The call comes to the failure of the function. -/
theorem failing_failure? (message : String) :
    plea.failure? Namespace.host (failing message).host = some (.failed 2 message) := rfl

/-- A short text is sent as a whole. -/
theorem serveOne_hostFailure_iff_short :
    ∃ later, serveOne Namespace.host (failing "no") = (.ok (), later) ∧
      later.conn.line.written = [Status.ready.toByte, 1, 2, 0, 0, 0, 2, 0, 0, 0, 110, 111] := by
  have hfits : Text.Fits "no" := Nat.le_of_ble_eq_true rfl
  obtain ⟨result, later, hserve, -, -, hok, hsent, -⟩ := serveOne_hostFailure_iff Namespace.host
    plea (failing "no") (.failed 2 "no") [] [] (failing_serves _) (failing_brings _)
    (failing_failure? _)
  rw [hok.mpr hfits] at hserve
  exact ⟨_, hserve, (hsent hfits).1⟩

/-- A text of one character more than the wire carries. -/
def longText : String := String.ofList (List.replicate (maxString + 1) 'a')

/-- The long text is one byte longer than the wire carries. -/
theorem length_bytes_longText : (Text.bytes longText).length = maxString + 1 := by
  have hone : (String.utf8EncodeChar 'a').length = 1 := rfl
  rw [Text.bytes, longText, String.toList_ofList, List.length_flatMap, List.map_replicate, hone,
    List.sum_replicate_nat, Nat.mul_one]

/-- The long text does not fit. -/
theorem not_fits_longText : ¬ Text.Fits longText := by
  intro hfits
  rw [Text.Fits, length_bytes_longText] at hfits
  exact Nat.not_succ_le_self _ hfits

/-- A function that fails with a longer text is called in good order, and the request does not end
well. Of the answer only the consent, the status and the code are sent. -/
theorem serveOne_long_failure :
    plea.Sound ∧ plea.failure? Namespace.host (failing longText).host = some (.failed 2 longText) ∧
      ∃ later, serveOne Namespace.host (failing longText) =
          (.error (.protocol (.oversized (maxString + 1))), later) ∧
        later.conn.line.written = [Status.ready.toByte, 1, 2, 0, 0, 0] := by
  have hasked := failing_failure? longText
  obtain ⟨later, hserve, -, -, hwritten⟩ :=
    Serving.serveOne_replies (f := .host) Namespace.host (failing_serves longText)
      (failing_brings longText)
  have hstops : failureReply .host (HostError.failed 2 longText).code
      (HostError.failed 2 longText).message = _ := failureReply_of_not_fits not_fits_longText
  rw [(Frame.reply_of_failure? hasked).1, hstops] at hserve hwritten
  rw [← length_bytes_longText]
  exact ⟨⟨_, rfl⟩, hasked, _, hserve, hwritten⟩

/-! ### The texts of a namespace -/

/-- The bytes of two texts in a row are the bytes of the first and those of the second. -/
theorem Text.bytes_append (s t : String) : bytes (s ++ t) = bytes s ++ bytes t := by
  rw [bytes, String.toList_append, List.flatMap_append]
  rfl

namespace Namespace

variable {φ : Type} {ns : Namespace φ} {p : Path} {e : HostError}

/-- A call of what is no function fails with twenty bytes and the path. -/
theorem fits_invoke_iff [Callable φ] {args : List Value}
    (hnone : ∀ f, ns.lookup? p ≠ some (.function f)) (hfail : (ns.invoke p args).1 = .error e) :
    Text.Fits e.message ↔ (Text.bytes p.text).length + 20 ≤ maxString := by
  have he : e = .notCallable p.text := by
    rw [invoke] at hfail
    split at hfail
    · rename_i f hlookup
      exact absurd hlookup (hnone f)
    · exact (Except.error.inj hfail).symm
  have hwords : (Text.bytes "undefined function: ").length = 20 := rfl
  rw [he]
  change (Text.bytes ("undefined function: " ++ p.text)).length ≤ maxString ↔ _
  rw [Text.bytes_append, List.length_append, hwords, Nat.add_comm]

/-- An assignment fails with twenty-six bytes and the path at most. -/
theorem fits_assign {key value : Value} (hfail : (ns.assign p key value).1 = .error e)
    (hp : (Text.bytes p.text).length + 26 ≤ maxString) : Text.Fits e.message := by
  have hwords : (Text.bytes "cannot index ").length = 13 := rfl
  have hmore : (Text.bytes ": not a table").length = 13 := rfl
  have hmissing : (Text.bytes "undefined value: ").length = 17 := rfl
  rw [assign] at hfail
  split at hfail
  · split at hfail
    · rw [← Except.error.inj hfail]
      exact Nat.le_of_ble_eq_true rfl
    · cases hfail
  · split at hfail
    · cases hfail
    · rw [← Except.error.inj hfail]
      change (Text.bytes ("cannot index " ++ p.text ++ ": not a table")).length ≤ maxString
      rw [Text.bytes_append, Text.bytes_append, List.length_append, List.length_append]
      omega
    · rw [← Except.error.inj hfail]
      change (Text.bytes ("undefined value: " ++ p.text)).length ≤ maxString
      rw [Text.bytes_append, List.length_append]
      omega

end Namespace

end RemoteCall
