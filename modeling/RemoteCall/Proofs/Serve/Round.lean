import RemoteCall.Proofs.Serve.Reply

/-!
# Rounds of the serve loop

What one round makes of the frame that is next on the line. A round gives a frame up early when the
consent times out, with the body unread, or when the body is read up to a fault that is not at its
end; no fault of a body is fatal, so the loop then goes on in what is left of it. From any other
frame it goes on behind it, if at all. On a line that takes everything it goes on after every frame.
-/

namespace RemoteCall

variable {σ : Type}

namespace Reading

variable {α β : Type}

/-- The fault of a reading, and what it leaves. -/
def fault? : Reading α → Option (Error × List UInt8)
  | .done _ => none
  | .stop e left => some (e, left)

/-- Readings with the same fault leave the same bytes. -/
theorem left_eq_of_fault? {r : Reading α} {q : Reading β} (h : r.fault? = q.fault?) :
    r.left = q.left := by
  cases r <;> cases q <;> simp_all [fault?, left]

end Reading

/-- Faults of readings in a row do not depend on the host if those of the parts do not. -/
theorem Asking.fault?_andThen {α β γ δ : Type} {r : Asking σ α} {q : Reading β}
    {k : α → Asking σ γ} {g : β → Reading δ} (more : List UInt8)
    (hr : ∀ s, (r s).1.fault? = q.fault?) (hk : ∀ a b s, (k a s).1.fault? = (g b).fault?) (s : σ) :
    (r.andThen more k s).1.fault? = (q.andThen more g).fault? := by
  have h := hr s
  unfold andThen
  cases hrun : r s with
  | mk reading t =>
    rw [hrun] at h
    cases reading with
    | done a =>
      cases q with
      | done b => exact hk a b t
      | stop e left => exact nomatch h
    | stop e left =>
      cases q with
      | done b => exact nomatch h
      | stop e' left' =>
        obtain ⟨rfl, rfl⟩ := Prod.mk.inj (Option.some.inj h)
        rfl

namespace Term

variable {f : Format}

/-- What the host makes of a blob is no fault. -/
theorem fault?_accepted (h : Host σ) (t : Term f) (s : σ) :
    (t.accepted h s).1.fault? = (t.reading 0).fault? := by
  unfold accepted Asking.andThen Asking.ofReading
  cases t.reading 0 with
  | done v => rfl
  | stop e left => simp [Reading.fault?]

/-- What the host makes of blobs is no fault. -/
theorem fault?_allAccepted (h : Host σ) (ts : List (Term f)) (s : σ) :
    (allAccepted h ts s).1.fault? = (readings ts).fault? := by
  induction ts generalizing s with
  | nil => rfl
  | cons t ts ih =>
    refine Asking.fault?_andThen _ (t.fault?_accepted h) (fun v w s => ?_) s
    refine Asking.fault?_andThen _ ih (fun _ _ _ => ?_) s
    rfl

end Term

/-- What is wrong with a frame, and what stands behind it, is the same for every host. -/
theorem Frame.fault?_asked {f : Format} (h : Host σ) (F : Frame f) (s : σ) :
    (F.asked h s).1.fault? = F.reading.fault? := by
  cases F with
  | call path args hlength =>
    refine Asking.fault?_andThen _ (fun _ => rfl) (fun _ _ s => ?_) s
    refine Asking.fault?_andThen _ (Term.fault?_allAccepted h args) (fun _ _ _ => ?_) s
    rfl
  | get path => rfl
  | set path key value =>
    refine Asking.fault?_andThen _ (fun _ => rfl) (fun _ _ s => ?_) s
    refine Asking.fault?_andThen _ (key.fault?_accepted h) (fun _ _ s => ?_) s
    refine Asking.fault?_andThen _ (value.fault?_accepted h) (fun _ _ _ => ?_) s
    rfl

/-- A reply is cut short, if at all, by a violation. -/
theorem Frame.mild_reply {f : Format} (h : Host σ) (F : Frame f) (s : σ) : (F.reply h s).Mild := by
  refine (Emission.mild_ofBytes _).append ?_
  have hfault := F.fault?_asked h s
  cases hasked : F.asked h s with
  | mk reading host =>
    rw [hasked] at hfault
    cases reading with
    | done op => exact op.mild_answer f h host
    | stop e left =>
      intro e' he'
      cases he'
      cases hreading : F.reading with
      | done op => rw [hreading] at hfault; exact nomatch hfault
      | stop e' left' =>
        rw [hreading] at hfault
        obtain ⟨rfl, -⟩ := Prod.mk.inj (Option.some.inj hfault)
        exact F.mild_reading e left' hreading

/-- A failure of the line is a timeout, or it is fatal. -/
theorem Error.ofIo_cases (e : IoError) : ofIo e = .timeout ∨ (ofIo e).severity = .fatal := by
  unfold ofIo
  split
  · exact .inr rfl
  · exact .inl rfl
  · exact .inl rfl
  · exact .inr rfl

namespace Serving

variable {f : Format}

/-- The consent goes out, or the line fails. -/
theorem consent_cases {c : Connection} (hopen : c.isOpen = true) :
    consent c = .ok () ∨ ∃ e, consent c = .error (.ofIo e) := by
  unfold consent giveConsent Session.writeByte
  have hsend := Session.send_run hopen fun _ => Emission.byte Status.ready.toByte
  rcases c.line.write_cases [Status.ready.toByte] with ⟨hok, -⟩ | ⟨e, he⟩
  · change (c.line.write (Emission.byte Status.ready.toByte).bytes).1 = _ at hok
    rw [hok] at hsend
    rw [bind_of_ok hsend, Session.flush_run]
    · rcases Line.flush_cases (c.line.write [Status.ready.toByte]).2 with ⟨hok', -⟩ | ⟨e, he⟩
      · exact .inl hok'
      · exact .inr ⟨e, he⟩
    · exact (c.line.write_keeps _).2.1.trans hopen
  · change (c.line.write (Emission.byte Status.ready.toByte).bytes).1 = _ at he
    rw [he] at hsend
    rw [bind_of_error hsend]
    exact .inr ⟨e, rfl⟩

/-- The state in which the loop begins its next round, if it goes on. -/
def advance (h : Host σ) (s : Served σ) : Option (Served σ) :=
  match serveOne h s with
  | (.ok (), s) => some s
  | (.error e, s) => if e.severity = .nonFatal then some s else none

/-- The state in which the loop begins the round with this number, if it comes to that. -/
def round? (h : Host σ) : Nat → Served σ → Option (Served σ)
  | 0, s => some s
  | n + 1, s => (round? h n s).bind (advance h)

/-- The frame is given up before its end: its consent times out, or it has a fault with something of
it still unread. -/
def Derails (s : Served σ) (F : Frame f) : Prop :=
  consent s.conn = .error .timeout ∨ consent s.conn = .ok () ∧ F.reading.left ≠ []

section

variable {h : Host σ} {F : Frame f} {s s' : Served σ} {rest : List UInt8} {after : List Arrival}

/-- The body of a frame is never empty. -/
theorem body_ne_nil (F : Frame f) : F.body ≠ [] := by
  have hpath : ∀ p : Payload, 0 < (p.wire f).length := fun p => by
    rw [Payload.wire, List.length_append, Format.length_wordBytes]
    omega
  intro hempty
  have hlength := congrArg List.length hempty
  cases F with
  | call path args hargs =>
    have := hpath path
    simp only [Frame.body, List.length_append, List.length_nil] at hlength
    omega
  | get path =>
    have := hpath path
    simp only [Frame.body, List.length_nil] at hlength
    omega
  | set path key value =>
    have := hpath path
    simp only [Frame.body, List.length_append, List.length_nil] at hlength
    omega

/-- After its consent the server leaves what the frame leaves, and the host has seen the frame. -/
theorem serveOne_consented (h : Host σ) (hopen : s.conn.OpenIn f)
    (hin : s.conn.line.inbound.Brings (F.bytes ++ rest) after)
    (hconsent : consent s.conn = .ok ()) :
    (serveOne h s).2.conn.OpenIn f ∧
    (serveOne h s).2.conn.line.intake = s.conn.line.intake ∧
    (serveOne h s).2.conn.line.inbound.Brings (F.reading.left ++ rest) after ∧
    (serveOne h s).2.host = F.effect h s.host := by
  obtain ⟨c, hc, hout, hbrings, hserve⟩ := serveOne_of_consent (h := h) hopen hin hconsent
  have hintake : c.line.intake = s.conn.line.intake :=
    (Connection.intake_of_outgoing hout).trans
      (Connection.intake_of_incoming (giveConsent_keeps s.conn))
  rw [Reading.left_eq_of_fault? (F.fault?_asked h s.host)] at hbrings
  rw [hserve, Frame.effect]
  cases F.asked h s.host with
  | mk reading host =>
    cases reading with
    | stop e left => exact ⟨hc, hintake, hbrings, rfl⟩
    | done op =>
      obtain ⟨hkeeps, hhost⟩ :=
        (respond_replies h op).bind (fun _ => replies_onConn Session.flush_keeps) ⟨c, host⟩
      refine ⟨hc.of_incoming hkeeps,
        (Connection.intake_of_incoming hkeeps).trans hintake, ?_, hhost⟩
      rw [Connection.inbound_of_incoming hkeeps]
      exact hbrings

/-- A fault of a frame is the error of the server. -/
theorem serveOne_of_fault (h : Host σ) (hopen : s.conn.OpenIn f)
    (hin : s.conn.line.inbound.Brings (F.bytes ++ rest) after) (hconsent : consent s.conn = .ok ())
    {e : Error} {left : List UInt8} (hreading : F.reading = .stop e left) :
    (serveOne h s).1 = .error e := by
  obtain ⟨c, -, -, -, hserve⟩ := serveOne_of_consent (h := h) hopen hin hconsent
  have hfault := F.fault?_asked h s.host
  rw [hreading] at hfault
  rw [hserve]
  cases hasked : F.asked h s.host with
  | mk reading host =>
    rw [hasked] at hfault
    cases reading with
    | done op => exact nomatch hfault
    | stop e' left' =>
      obtain ⟨rfl, -⟩ := Prod.mk.inj (Option.some.inj hfault)
      rfl

/-- Serving a frame leaves the host as it was or does what the frame asks for. -/
theorem host_serveOne (h : Host σ) (hopen : s.conn.OpenIn f)
    (hin : s.conn.line.inbound.Brings (F.bytes ++ rest) after) :
    (serveOne h s).2.host = s.host ∨ (serveOne h s).2.host = F.effect h s.host := by
  rcases consent_cases hopen.isOpen with hconsent | ⟨e, hconsent⟩
  · exact .inr (serveOne_consented h hopen hin hconsent).2.2.2
  · obtain ⟨t, hserve, -, hhost, -⟩ := serveOne_of_refusal (h := h) hopen hin hconsent
    rw [hserve]
    exact .inl hhost

/-- The loop goes on behind a request that was served. -/
theorem advance_of_ok (hok : (serveOne h s).1 = .ok ()) : advance h s = some (serveOne h s).2 := by
  unfold advance
  split
  · rename_i hserve
    rw [hserve]
  · rename_i hserve
    rw [hserve] at hok
    exact nomatch hok

/-- Behind a failure the loop goes on when that is about the request alone, and else it ends. -/
theorem advance_of_error {e : Error} (he : (serveOne h s).1 = .error e) :
    advance h s = if e.severity = .nonFatal then some (serveOne h s).2 else none := by
  unfold advance
  split
  · rename_i hserve
    rw [hserve] at he
    exact nomatch he
  · rename_i hserve
    rw [hserve] at he ⊢
    cases he
    rfl

/-- Where the loop goes on is where the request has left off. -/
theorem eq_of_advance (hadvance : advance h s = some s') : (serveOne h s).2 = s' := by
  cases hresult : (serveOne h s).1 with
  | ok u =>
    rw [advance_of_ok hresult] at hadvance
    exact Option.some.inj hadvance
  | error e =>
    rw [advance_of_error hresult] at hadvance
    split at hadvance
    · exact Option.some.inj hadvance
    · exact nomatch hadvance

/-- A request that is served takes one round. -/
theorem serveRequests_of_ok {t : Served σ} (hserve : serveOne h s = (.ok (), t)) (rounds : Nat) :
    serveRequests h (rounds + 1) s = serveRequests h rounds t := by
  change (match serveOne h s with
    | (.ok (), t) => serveRequests h rounds t
    | (.error e, t) => _) = _
  rw [hserve]

/-- After a failure its severity decides. -/
theorem serveRequests_of_error {e : Error} {t : Served σ} (hserve : serveOne h s = (.error e, t))
    (rounds : Nat) :
    serveRequests h (rounds + 1) s =
      match e.severity with
      | .done => (.ok (), t)
      | .nonFatal => serveRequests h rounds t
      | .fatal => (.error e, t) := by
  change (match serveOne h s with
    | (.ok (), t) => _
    | (.error e, t) => match e.severity with
      | .done => _
      | .nonFatal => serveRequests h rounds t
      | .fatal => _) = _
  rw [hserve]

/-- The loop goes on unless the request has failed for good. -/
theorem advance_eq_none_iff :
    advance h s = none ↔ ∃ e, (serveOne h s).1 = .error e ∧ e.severity ≠ .nonFatal := by
  cases hresult : (serveOne h s).1 with
  | ok u =>
    rw [advance_of_ok hresult]
    exact iff_of_false nofun fun ⟨e, he, _⟩ => nomatch he
  | error e =>
    rw [advance_of_error hresult, ite_eq_right_iff]
    exact ⟨fun hnone => ⟨e, rfl, fun hseverity => nomatch hnone hseverity⟩,
      fun ⟨e', he, hne⟩ hseverity => absurd (Except.error.inj he ▸ hseverity) hne⟩

/-- Where the loop goes on, it does so in the state that the request has left. -/
theorem advance_of_ne_none (hne : advance h s ≠ none) : advance h s = some (serveOne h s).2 := by
  obtain ⟨s', hs'⟩ := Option.ne_none_iff_exists'.mp hne
  rw [hs', eq_of_advance hs']

/-- The outcome of a loop whose last request came to this: that the peer hangs up is none of its
failures. -/
def outcome : Except Error Unit → Except Error Unit
  | .ok () => .ok ()
  | .error e => if e.severity = .done then .ok () else .error e

/-- The loop ends with what the last request has left. -/
theorem serveRequests_of_stop (hstop : advance h s = none) (rounds : Nat) :
    serveRequests h (rounds + 1) s = (outcome (serveOne h s).1, (serveOne h s).2) := by
  obtain ⟨e, he, hne⟩ := advance_eq_none_iff.mp hstop
  rw [serveRequests_of_error (Prod.ext he rfl), he, outcome]
  cases hseverity : e.severity with
  | done => rfl
  | fatal => rfl
  | nonFatal => exact absurd hseverity hne

/-- The loop goes on in its next round. -/
theorem serveRequests_of_advance (hnext : advance h s = some s') (rounds : Nat) :
    serveRequests h (rounds + 1) s = serveRequests h rounds s' := by
  rw [advance] at hnext
  cases hserve : serveOne h s with
  | mk result t =>
    rw [hserve] at hnext
    cases result with
    | ok u =>
      cases hnext
      exact serveRequests_of_ok hserve rounds
    | error e =>
      by_cases hseverity : e.severity = .nonFatal
      · simp only [hseverity, ↓reduceIte] at hnext
        cases hnext
        rw [serveRequests_of_error hserve, hseverity]
      · simp only [hseverity, ↓reduceIte] at hnext
        exact nomatch hnext

/-- The loop comes to a round with the rounds that are left. -/
theorem serveRequests_of_round {n : Nat} {t : Served σ} (hround : round? h n s = some t)
    (rounds : Nat) : serveRequests h (n + rounds) s = serveRequests h rounds t := by
  induction n generalizing t rounds with
  | zero =>
    cases hround
    rw [Nat.zero_add]
  | succ n ih =>
    obtain ⟨u, hu, hadvance⟩ := Option.bind_eq_some_iff.mp hround
    rw [Nat.add_assoc, Nat.add_comm 1, ih hu, serveRequests_of_advance hadvance]

/-- Nothing but a timeout makes the server start over. -/
theorem awaitHandshake_of_ne_timeout {c : Connection}
    (haccept : (Session.acceptHandshake c).1 ≠ .error .timeout) (rounds : Nat) :
    awaitHandshake (rounds + 1) c = Session.acceptHandshake c := by
  rw [awaitHandshake]
  dsimp only
  split
  · rename_i hrun
    exact absurd (congrArg Prod.fst hrun) haccept
  · rfl

/-- An accepted handshake ends the wait for one. -/
theorem awaitHandshake_of_ok {c c' : Connection}
    (haccept : Session.acceptHandshake c = (.ok (), c')) (rounds : Nat) :
    awaitHandshake (rounds + 1) c = (.ok (), c') := by
  rw [awaitHandshake_of_ne_timeout (by rw [haccept]; nofun), haccept]

/-- After a timeout the wait for a handshake goes on. -/
theorem awaitHandshake_of_timeout {c c' : Connection}
    (haccept : Session.acceptHandshake c = (.error .timeout, c')) (rounds : Nat) :
    awaitHandshake (rounds + 1) c = awaitHandshake rounds c' := by
  rw [awaitHandshake]
  dsimp only
  rw [haccept]

/-- Any other failure ends the wait for a handshake. -/
theorem awaitHandshake_of_error {c c' : Connection} {e : Error}
    (haccept : Session.acceptHandshake c = (.error e, c')) (he : e ≠ .timeout) (rounds : Nat) :
    awaitHandshake (rounds + 1) c = (.error e, c') := by
  have hne : (Session.acceptHandshake c).1 ≠ .error .timeout := by
    rw [haccept]
    exact fun htime => he (Except.error.inj htime)
  rw [awaitHandshake_of_ne_timeout hne, haccept]

/-- A server that gets through the handshake serves requests. -/
theorem serve_of_await {c : Connection}
    (hawait : awaitHandshake s.conn.rounds s.conn = (.ok (), c)) :
    serve h s = serveRequests h c.rounds ⟨c, s.host⟩ := by
  have hfirst : (onConn (fun c => awaitHandshake c.rounds c) : Serving σ Unit) s =
      (.ok (), ⟨c, s.host⟩) := onConn_of_run hawait
  rw [serve, bind_of_ok hfirst]

/-- A server that does not get through the handshake serves nothing. -/
theorem serve_of_await_error {e : Error} {c : Connection}
    (hawait : awaitHandshake s.conn.rounds s.conn = (.error e, c)) :
    serve h s = (.error e, ⟨c, s.host⟩) := by
  have hfirst : (onConn (fun c => awaitHandshake c.rounds c) : Serving σ Unit) s =
      (.error e, ⟨c, s.host⟩) := onConn_of_run hawait
  rw [serve, bind_of_error hfirst]

/-- A server that gets through the handshake at once serves requests. -/
theorem serve_of_handshake {c : Connection}
    (hshake : Session.acceptHandshake s.conn = (.ok (), c)) :
    serve h s = serveRequests h c.rounds ⟨c, s.host⟩ := by
  apply serve_of_await
  rw [Connection.rounds, awaitHandshake]
  dsimp only
  rw [hshake]

/-- From a frame that is given up the loop goes on inside it. -/
theorem advance_of_derails (h : Host σ) (hopen : s.conn.OpenIn f)
    (hin : s.conn.line.inbound.Brings (F.bytes ++ rest) after) (hderails : Derails s F) :
    ∃ s' left, advance h s = some s' ∧ left ≠ [] ∧
      s'.conn.line.inbound.Brings (left ++ rest) after := by
  rcases hderails with hconsent | ⟨hconsent, hleft⟩
  · obtain ⟨t, hserve, -, -, -, hbrings⟩ := serveOne_of_refusal (h := h) hopen hin hconsent
    refine ⟨t, F.body, ?_, body_ne_nil F, hbrings⟩
    have hadvance := advance_of_error (congrArg Prod.fst hserve)
    rw [hserve] at hadvance
    exact hadvance
  · obtain ⟨-, -, hbrings, -⟩ := serveOne_consented h hopen hin hconsent
    refine ⟨(serveOne h s).2, F.reading.left, ?_, hleft, hbrings⟩
    cases hreading : F.reading with
    | done op => exact absurd (congrArg Reading.left hreading) hleft
    | stop e left =>
      rw [advance_of_error (serveOne_of_fault h hopen hin hconsent hreading),
        if_pos (F.mild_reading.nonFatal hreading)]

/-- From any other frame the loop goes on behind it, and the host has seen it. -/
theorem advance_of_not_derails (hopen : s.conn.OpenIn f)
    (hin : s.conn.line.inbound.Brings (F.bytes ++ rest) after) (hstays : ¬ Derails s F)
    (hadvance : advance h s = some s') :
    s'.conn.OpenIn f ∧ s'.conn.line.intake = s.conn.line.intake ∧
      s'.conn.line.inbound.Brings rest after ∧ s'.host = F.effect h s.host := by
  obtain ⟨htimeout, hleft⟩ := not_or.mp hstays
  rcases consent_cases hopen.isOpen with hconsent | ⟨e, hconsent⟩
  · have hall : F.reading.left = [] := Classical.not_not.mp fun hne => hleft ⟨hconsent, hne⟩
    have hserved := serveOne_consented h hopen hin hconsent
    rw [hall, List.nil_append, eq_of_advance hadvance] at hserved
    exact hserved
  · obtain ⟨t, hserve, -⟩ := serveOne_of_refusal (h := h) hopen hin hconsent
    have hfatal : (Error.ofIo e).severity = .fatal :=
      (Error.ofIo_cases e).resolve_left fun htime => htimeout (htime ▸ hconsent)
    rw [advance_of_error (congrArg Prod.fst hserve), hfatal] at hadvance
    exact nomatch hadvance

/-- At the end of the stream a request is the peer's farewell. -/
theorem serveOne_of_end (h : Host σ) (hopen : s.conn.OpenIn f)
    (hin : s.conn.line.inbound.Brings [] []) :
    serveOne h s = (.error .disconnected, ⟨s.conn.withInput ⟨[], []⟩, s.host⟩) := by
  have hreceive := Session.receive_run hopen.isOpen fun _ => Reader.byte?
  rw [Reader.byte?, Inbound.next_of_end hin] at hreceive
  have hcommand : Session.readCommand s.conn =
      (.error .disconnected, s.conn.withInput ⟨[], []⟩) := bind_of_ok hreceive
  have hserving : (onConn Session.readCommand : Serving σ UInt8) s =
      (.error .disconnected, ⟨s.conn.withInput ⟨[], []⟩, s.host⟩) := onConn_of_run hcommand
  exact bind_of_error hserving

end

section

variable {h : Host σ} {F : Frame f} {s : Served σ} {rest : List UInt8} {after : List Arrival}

/-- A line that takes everything takes the consent. -/
theorem consent_of_free (hopen : s.conn.isOpen = true) (hfree : s.conn.line.intake = .free) :
    consent s.conn = .ok () := by
  have hheld := s.conn.line.inbound.brings_held
  rw [← List.append_nil s.conn.line.inbound.held] at hheld
  obtain ⟨later, hrun, -⟩ := giveConsent_does s.conn _ _ ⟨hopen, rfl⟩ hfree hheld
  exact congrArg Prod.fst hrun

/-- On a line that takes everything the loop goes on after every frame. -/
theorem advance_of_free (h : Host σ) (hopen : s.conn.OpenIn f) (hfree : s.conn.line.intake = .free)
    (hin : s.conn.line.inbound.Brings (F.bytes ++ rest) after) :
    advance h s = some (serveOne h s).2 := by
  obtain ⟨later, hserve, -⟩ := serveOne_replies h ⟨hopen, rfl, hfree⟩ hin
  cases hfailure : (F.reply h s.host).failure with
  | none =>
    rw [Emission.outcome_eq_ok.mpr hfailure] at hserve
    exact advance_of_ok (congrArg Prod.fst hserve)
  | some e =>
    rw [Emission.outcome_eq_error.mpr hfailure] at hserve
    rw [advance_of_error (congrArg Prod.fst hserve),
      if_pos ((F.mild_reply h s.host).nonFatal hfailure)]

end

end Serving

end RemoteCall
