import RemoteCall.Proofs.Remote.Client
import RemoteCall.Proofs.Serve.Request
import RemoteCall.Proofs.Wire.Severity

/-!
# What a server replies

On a line that takes everything a server sends, for each frame that it reads, its consent and then
what the host's answer amounts to. The reply is streamed, so an answer that cannot be encoded breaks
off after some of it has gone out, and a read has no reply at all for most failures of the host. The
reply is therefore an emission, and the error that cuts it short is the error of the request.
-/

namespace RemoteCall

variable {σ : Type}

/-- What is sent for an operation on a host in this state, behind the consent. -/
def Operation.answer (f : Format) (h : Host σ) (op : Operation) (s : σ) : Emission :=
  match op with
  | .call path args =>
    match (h.invoke s path args).1 with
    | .ok results =>
      if UInt32.size ≤ results.length then .fail (.protocol .tooManyResults)
      else resultsReply f results
    | .error e => failureReply f e.code e.message
  | .get path =>
    match h.resolve s path with
    | .ok v => v.encode f
    | .error e =>
      if e.isNotFound then Value.nil.encode f
      else .fail (.protocol (.unreadable path.text e.message))
  | .set path key value =>
    match (h.assign s path key value).1 with
    | .ok () => .byte 0
    | .error e => failureReply f e.code e.message

/-- Values can be refused by no failure but mild ones. -/
theorem Emission.mild_values (f : Format) (vs : List Value) : (values f vs).Mild := by
  induction vs with
  | nil => exact mild_ofBytes _
  | cons v vs ih => exact (mild_value f 0 v).append ih

/-- The reply for a failure can be refused by no failure but mild ones. -/
theorem mild_failureReply (f : Format) (code : UInt32) (message : String) :
    (failureReply f code message).Mild :=
  (Emission.mild_ofBytes _).append ((Emission.mild_ofBytes _).append (Emission.mild_string f _))

/-- An answer is refused, if at all, as a violation. -/
theorem Operation.mild_answer (f : Format) (h : Host σ) (op : Operation) (s : σ) :
    (op.answer f h s).Mild := by
  cases op with
  | call path args =>
    dsimp only [answer]
    split
    · split
      · exact Emission.mild_violation _
      · exact (Emission.mild_ofBytes _).append
          ((Emission.mild_ofBytes _).append (Emission.mild_values f _))
    · exact mild_failureReply f _ _
  | get path =>
    dsimp only [answer]
    split
    · exact Emission.mild_value f 0 _
    · split
      · exact Emission.mild_value f 0 .nil
      · exact Emission.mild_violation _
  | set path key value =>
    dsimp only [answer]
    split
    · exact Emission.mild_ofBytes _
    · exact mild_failureReply f _ _

namespace Frame

variable {f : Format}

/-- The reply to a frame: the consent, and behind it the answer to what is read of the frame. -/
def reply (h : Host σ) (F : Frame f) (s : σ) : Emission :=
  .byte Status.ready.toByte ++
    match F.asked h s with
    | (.done op, s) => op.answer f h s
    | (.stop e _, _) => .fail e

/-- The reply to a frame begins with the consent. -/
theorem bytes_reply (h : Host σ) (F : Frame f) (s : σ) :
    (F.reply h s).bytes = Status.ready.toByte ::
      (match F.asked h s with
        | (.done op, s) => op.answer f h s
        | (.stop e _, _) => .fail e : Emission).bytes := rfl

/-- The consent can always be sent, so the answer behind it decides. -/
theorem outcome_reply (h : Host σ) (F : Frame f) (s : σ) :
    (F.reply h s).outcome =
      (match F.asked h s with
        | (.done op, s) => op.answer f h s
        | (.stop e _, _) => .fail e : Emission).outcome := rfl

end Frame

namespace Serving

open Session

variable {f own : Format} {h : Host σ}

/-- On a line that takes everything the computation takes the host from this state to that one and
sends this emission, whether or not it fails. -/
def Emits (f : Format) (x : Serving σ Unit) (host host' : σ) (e : Emission) : Prop :=
  ∀ c, c.OpenIn f → c.line.intake = .free →
    ∃ later, x ⟨c, host⟩ = (e.outcome, ⟨later, host'⟩) ∧ later.incoming = c.incoming ∧
      later.line.written = c.line.written ++ e.bytes

/-- What a session emits is emitted inside the server, and the host stays. -/
theorem emits_onConn {y : Session Unit} {e : Emission} (hy : Session.Emits f y e) (host : σ) :
    Emits f (onConn y) host host e := by
  intro c hc hfree
  obtain ⟨later, hrun, hlater⟩ := hy c hc hfree
  refine ⟨later, ?_, hlater⟩
  exact onConn_of_run hrun

/-- Failing emits nothing but the failure, and the host stays. -/
theorem emits_throw (failure : Error) (host : σ) :
    Emits f (throw failure) host host (.fail failure) :=
  fun c _ _ => ⟨c, rfl, rfl, (List.append_nil _).symm⟩

/-- What is sent after the host was asked is sent in the state that it has gone on to. -/
theorem emits_onHost_bind {β : Type} {act : σ → β × σ} {y : β → Serving σ Unit}
    {host host' : σ} {e : Emission} (hy : Emits f (y (act host).1) (act host).2 host' e) :
    Emits f (onHost act >>= y) host host' e := by
  intro c hc hfree
  rw [bind_of_ok (rfl : onHost act ⟨c, host⟩ = (.ok (act host).1, ⟨c, (act host).2⟩))]
  exact hy c hc hfree

/-- Pushing adds nothing to what is sent. -/
theorem Emits.bind_flush {x : Serving σ Unit} {host host' : σ} {e : Emission}
    (hx : Emits f x host host' e) : Emits f (x >>= fun _ => onConn flush) host host' e := by
  intro c hc hfree
  obtain ⟨middle, hrun, hsame, hwritten⟩ := hx c hc hfree
  cases hfailure : e.failure with
  | some failure =>
    rw [Emission.outcome_eq_error.mpr hfailure] at hrun ⊢
    exact ⟨middle, bind_of_error hrun, hsame, hwritten⟩
  | none =>
    rw [Emission.outcome_eq_ok.mpr hfailure] at hrun ⊢
    obtain ⟨later, hlater, hkept, hsent⟩ := emits_onConn emits_flush host' middle
      (hc.of_incoming hsame) ((Connection.intake_of_incoming hsame).trans hfree)
    refine ⟨later, (bind_of_ok hrun).trans hlater, hkept.trans hsame, ?_⟩
    rw [hsent, hwritten]
    exact List.append_nil _

/-- Values are emitted one after the other. -/
theorem writeValues_emits (vs : List Value) : Session.Emits f (writeValues vs) (.values f vs) := by
  induction vs with
  | nil => exact emits_pure
  | cons v vs ih => exact (emits_send (v.encode ·)).bind ih

/-- A failure of the host is sent as its code and its text. -/
theorem writeFailure_emits (e : HostError) (host : σ) :
    Emits f (writeFailure e) host host (failureReply f e.code e.message) :=
  emits_onConn ((emits_send fun _ => .byte 1).bind ((emits_send (.word · e.code)).bind
    (emits_send (.text · e.message)))) host

/-- Carrying out an operation does to the host what it asks for and sends the answer. -/
theorem respond_emits (h : Host σ) (op : Operation) (s : σ) :
    Emits f (respond h op) s (op.effect h s) (op.answer f h s) := by
  cases op with
  | call path args =>
    refine emits_onHost_bind ?_
    dsimp only [Operation.effect, Operation.answer]
    cases (h.invoke s path args).1 with
    | error e => exact writeFailure_emits e _
    | ok results =>
      refine emits_onConn ?_ _
      by_cases hcount : UInt32.size ≤ results.length
      · simp only [hcount, ↓reduceIte]
        exact Session.emits_throw _
      · simp only [hcount, ↓reduceIte]
        exact (emits_send fun _ => .byte 0).bind
          ((emits_send (.word · (UInt32.ofNat results.length))).bind (writeValues_emits results))
  | get path =>
    refine emits_onHost_bind ?_
    dsimp only [Operation.effect, Operation.answer]
    cases h.resolve s path with
    | ok v => exact emits_onConn (emits_send (v.encode ·)) s
    | error e =>
      dsimp only
      split
      · exact emits_onConn (emits_send (Value.nil.encode ·)) s
      · exact emits_throw _ s
  | set path key value =>
    refine emits_onHost_bind ?_
    dsimp only [Operation.effect, Operation.answer]
    cases (h.assign s path key value).1 with
    | ok _ => exact emits_onConn (emits_send fun _ => .byte 0) _
    | error e => exact writeFailure_emits e _

/-- The consent is one byte. -/
theorem giveConsent_emits : Session.Emits f giveConsent (.byte Status.ready.toByte) :=
  (emits_send fun _ => .byte Status.ready.toByte).bind_flush

/-- On a line that takes everything a frame is answered with its reply, as far as that can be sent,
and what the frame leaves is next. -/
theorem serveOne_replies (h : Host σ) {F : Frame f} {s : Served σ} {rest : List UInt8}
    {after : List Arrival} (hs : s.conn.Serves own f)
    (hin : s.conn.line.inbound.Brings (F.bytes ++ rest) after) :
    ∃ later, serveOne h s = ((F.reply h s.host).outcome, ⟨later, F.effect h s.host⟩) ∧
      later.Serves own f ∧ later.line.inbound.Brings ((F.asked h s.host).1.left ++ rest) after ∧
      later.line.written = s.conn.line.written ++ (F.reply h s.host).bytes := by
  obtain ⟨d, hconsent, hkept, hsent⟩ := giveConsent_emits s.conn hs.openIn hs.free
  have hok : consent s.conn = .ok () := congrArg Prod.fst hconsent
  obtain ⟨c, hc, hout, hnext, hserve⟩ := serveOne_of_consent (h := h) hs.openIn hin hok
  rw [hconsent] at hout
  have hserves : c.Serves own f := by
    have hd := hs.of_incoming hkept
    have hout' := hout
    simp only [Connection.outgoing, Prod.mk.injEq] at hout'
    exact ⟨hc, hout'.2.1.trans hd.native_eq, (Connection.intake_of_outgoing hout).trans hd.free⟩
  have hwritten : c.line.written = s.conn.line.written ++ [Status.ready.toByte] :=
    (Connection.written_of_outgoing hout).trans hsent
  rw [hserve, Frame.outcome_reply, Frame.bytes_reply, Frame.effect]
  cases hasked : F.asked h s.host with
  | mk reading host =>
    rw [hasked] at hnext
    cases reading with
    | stop e left => exact ⟨c, rfl, hserves, hnext, hwritten⟩
    | done op =>
      obtain ⟨later, hrun, hsame, hlater⟩ :=
        (respond_emits h op host).bind_flush c hc hserves.free
      refine ⟨later, hrun, hserves.of_incoming hsame, ?_, ?_⟩
      · rw [Connection.inbound_of_incoming hsame]
        exact hnext
      · rw [hlater, hwritten, List.append_assoc]
        rfl

end Serving

end RemoteCall
