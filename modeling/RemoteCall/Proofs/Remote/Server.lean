import RemoteCall.Proofs.Serve.Reply

/-!
# The server's side of an exchange

What a server on a line that takes everything sends in answer to a frame. With nothing behind the
command byte it has sent its consent; with the whole frame it sends the reply that stands for what
the host has answered, and leaves what follows the frame.
-/

namespace RemoteCall

variable {σ : Type}

namespace Serving

open Session

variable {f : Format} {h : Host σ} {F : Frame f}

/-- From this state of the host the computation arrives at that one and sends this, whatever the
connection. -/
def Answers (f : Format) (x : Serving σ Unit) (host host' : σ) (reply : List UInt8) : Prop :=
  ∀ c rest after, c.OpenIn f → c.line.intake = .free → c.line.inbound.Brings rest after →
    ∃ later, x ⟨c, host⟩ = (.ok (), ⟨later, host'⟩) ∧ later.OpenIn f ∧ later.line.intake = .free ∧
      later.line.inbound.Brings rest after ∧ later.line.written = c.line.written ++ reply

/-- What is sent without a failure answers. -/
theorem Emits.answers {x : Serving σ Unit} {host host' : σ} {e : Emission}
    (hx : Emits f x host host' e) (he : e.failure = none) : Answers f x host host' e.bytes := by
  intro c rest after hc hfree hin
  obtain ⟨later, hrun, hsame, hwritten⟩ := hx c hc hfree
  rw [Emission.outcome_eq_ok.mpr he] at hrun
  refine ⟨later, hrun, hc.of_incoming hsame, (Connection.intake_of_incoming hsame).trans hfree, ?_,
    hwritten⟩
  rw [Connection.inbound_of_incoming hsame]
  exact hin

/-- An operation is answered with what stands for the answer of the host, if that can be sent. -/
theorem respond_answers {op : Operation} {host host' : σ} {e : Emission}
    (heffect : op.effect h host = host') (hanswer : op.answer f h host = e)
    (he : e.failure = none) : Answers f (respond h op) host host' e.bytes := by
  have hemits := respond_emits (f := f) h op host
  rw [heffect, hanswer] at hemits
  exact hemits.answers he

section

variable {host host' : σ} {path : Path} {args : List Value}

/-- A call that succeeds is answered with its results. -/
theorem respond_call_ok {results : List Value}
    (hinvoke : h.invoke host path args = (.ok results, host'))
    (hcount : results.length < UInt32.size) (hresults : ∀ v ∈ results, v.Encodable f) :
    Answers f (respond h (.call path args)) host host' (resultsReply f results).bytes := by
  refine respond_answers (by simp only [Operation.effect, hinvoke]) ?_
    (Emission.append_failure_eq_none.mpr ⟨rfl, Emission.append_failure_eq_none.mpr
      ⟨rfl, Emission.values_failure_eq_none.mpr hresults⟩⟩)
  simp only [Operation.answer, hinvoke]
  exact if_neg (Nat.not_le_of_lt hcount)

/-- A call that fails is answered with its failure. -/
theorem respond_call_error {e : HostError} (hinvoke : h.invoke host path args = (.error e, host'))
    (he : Text.Fits e.message) :
    Answers f (respond h (.call path args)) host host' (failureReply f e.code e.message).bytes :=
  respond_answers (by simp only [Operation.effect, hinvoke])
    (by simp only [Operation.answer, hinvoke]) (failureReply_failure_eq_none.mpr he)

/-- What is found at a path is the answer to reading it. -/
theorem respond_get_ok {v : Value} (hresolve : h.resolve host path = .ok v) (hv : v.Encodable f) :
    Answers f (respond h (.get path)) host host (v.encode f).bytes :=
  respond_answers rfl (by simp only [Operation.answer, hresolve]) hv

/-- Where nothing lives the reply is nil. -/
theorem respond_get_missing {e : HostError} (hresolve : h.resolve host path = .error e)
    (he : e.isNotFound = true) :
    Answers f (respond h (.get path)) host host (Value.nil.encode f).bytes :=
  respond_answers rfl (by simp only [Operation.answer, hresolve, he, ↓reduceIte]) rfl

variable {key value : Value}

/-- An assignment that is made is answered with zero. -/
theorem respond_set_ok (hassign : h.assign host path key value = (.ok (), host')) :
    Answers f (respond h (.set path key value)) host host' [0] :=
  respond_answers (e := .byte 0) (by simp only [Operation.effect, hassign])
    (by simp only [Operation.answer, hassign]) rfl

/-- An assignment that fails is answered with its failure. -/
theorem respond_set_error {e : HostError}
    (hassign : h.assign host path key value = (.error e, host')) (he : Text.Fits e.message) :
    Answers f (respond h (.set path key value)) host host'
      (failureReply f e.code e.message).bytes :=
  respond_answers (by simp only [Operation.effect, hassign])
    (by simp only [Operation.answer, hassign]) (failureReply_failure_eq_none.mpr he)

end

/-- With nothing behind the command byte a server has sent its consent. -/
theorem serveOne_stalls (h : Host σ) (F : Frame f) {s : Served σ} {after left : List Arrival}
    {e : Error}
    (hopen : s.conn.OpenIn f) (hfree : s.conn.line.intake = .free)
    (hin : s.conn.line.inbound.Brings [F.command.toByte] after)
    (hmeets : Inbound.Meets after e left) :
    (serveOne h s).2.conn.line.written = s.conn.line.written ++ [Status.ready.toByte] := by
  obtain ⟨later, hcommand, hlater⟩ :=
    reads_command (f := f) F.command.toByte s [] after hopen hin
  obtain ⟨c, hconsent, hc, -, hnext, hwritten⟩ :=
    giveConsent_does (s.conn.withInput later) [] after (hopen.withInput later) hfree hlater
  have hready : (onConn giveConsent : Serving σ Unit) ⟨s.conn.withInput later, s.host⟩ =
      (.ok (), ⟨c, s.host⟩) := onConn_of_run hconsent
  let last : Inbound := ⟨[], left⟩
  have hread : readString c = (.error e, c.withInput last) := by
    rw [readString, receive_run hc.isOpen, hc.format_eq,
      Reader.breaks_string c.line.inbound after left e hnext hmeets]
  have hpath :
      (readPath : Serving σ Path) ⟨c, s.host⟩ = (.error e, ⟨c.withInput last, s.host⟩) := by
    rw [readPath, onConn_bind]
    refine bind_of_error ?_
    exact onConn_of_run hread
  have hbody : readOperation h F.command ⟨c, s.host⟩ = (.error e, ⟨c.withInput last, s.host⟩) := by
    cases F with
    | call path args hargs => exact bind_of_error hpath
    | get path => exact bind_of_error hpath
    | set path key value => exact bind_of_error hpath
  have hserve : serveOne h s = (.error e, ⟨c.withInput last, s.host⟩) := by
    rw [serveOne_of_command hcommand, serveBody]
    change (onConn giveConsent >>= _) (⟨s.conn.withInput later, s.host⟩ : Served σ) = _
    rw [bind_of_ok hready]
    exact bind_of_error hbody
  rw [hserve]
  exact hwritten

/-- With a frame before it a server sends its consent and the reply, and leaves what follows. -/
theorem serveOne_answers {op : Operation} {s : Served σ} {host' : σ} {reply : List UInt8}
    {rest : List UInt8} {after : List Arrival} (hasked : F.asked h s.host = (.done op, s.host))
    (hanswer : Answers f (respond h op) s.host host' reply) (hopen : s.conn.OpenIn f)
    (hfree : s.conn.line.intake = .free)
    (hin : s.conn.line.inbound.Brings (F.bytes ++ rest) after) :
    ∃ later, serveOne h s = (.ok (), ⟨later, host'⟩) ∧ later.OpenIn f ∧
      later.line.intake = .free ∧ later.line.inbound.Brings rest after ∧
      later.line.written = s.conn.line.written ++ (Status.ready.toByte :: reply) := by
  obtain ⟨later, hconsent, -, hcfree, -, hwritten⟩ :=
    giveConsent_does s.conn (F.bytes ++ rest) after hopen hfree hin
  have hok : consent s.conn = .ok () := congrArg Prod.fst hconsent
  obtain ⟨c, hc, hout, hnext, hserve⟩ := serveOne_of_consent (h := h) hopen hin hok
  rw [hconsent] at hout
  rw [hasked] at hnext hserve
  have hsent : c.line.written = s.conn.line.written ++ [Status.ready.toByte] :=
    (Connection.written_of_outgoing hout).trans hwritten
  have hintake : c.line.intake = .free := (Connection.intake_of_outgoing hout).trans hcfree
  obtain ⟨d, hreply, hd, hdfree, hdin, hdwritten⟩ := hanswer c rest after hc hintake hnext
  obtain ⟨last, hflush, hlast, hlfree, hlin, hlwritten⟩ :=
    (emits_onConn (f := f) emits_flush host').answers rfl d rest after hd hdfree hdin
  refine ⟨last, ?_, hlast, hlfree, hlin, ?_⟩
  · rw [hserve]
    exact (bind_of_ok hreply).trans hflush
  · rw [hlwritten, hdwritten, hsent]
    simp [Emission.ofBytes]

end Serving

namespace Term

variable {f : Format} {h : Host σ}

/-- A host that keeps blobs takes values as they are read. -/
theorem accepted_of_keep (hkeep : h.adopt = keepBlob) (t : Term f) :
    t.accepted h = Asking.ofReading (t.reading 0) := by
  funext s
  unfold accepted Asking.andThen Asking.ofReading
  cases t.reading 0 with
  | stop e left => simp only [List.append_nil]
  | done v =>
    cases v with
    | blob bytes => simp only [Host.accept, hkeep, keepBlob]
    | _ => rfl

/-- A host that takes over every blob is asked about what was read, and nothing else. -/
theorem allAccepted_of_keep (hkeep : h.adopt = keepBlob) (ts : List (Term f)) :
    allAccepted h ts = Asking.ofReading (readings ts) := by
  induction ts with
  | nil => rfl
  | cons t ts ih =>
    rw [allAccepted, readings, accepted_of_keep hkeep, ih]
    simp only [Asking.ofReading_andThen]

end Term

/-- A host that keeps blobs is asked for what the frame reads as. -/
theorem Frame.asked_of_keep {f : Format} {h : Host σ} (hkeep : h.adopt = keepBlob) (F : Frame f) :
    F.asked h = Asking.ofReading F.reading := by
  cases F with
  | call path args hlength =>
    rw [asked, reading, Term.allAccepted_of_keep hkeep]
    simp only [Asking.ofReading_andThen]
  | get path => rfl
  | set path key value =>
    rw [asked, reading, Term.accepted_of_keep hkeep, Term.accepted_of_keep hkeep]
    simp only [Asking.ofReading_andThen]

end RemoteCall
