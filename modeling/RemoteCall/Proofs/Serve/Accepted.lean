import RemoteCall.Proofs.Client.Boundary
import RemoteCall.Proofs.Serve.Stream
import RemoteCall.Proofs.Wire.Accepted

/-!
# Requests that were served

What is known of a request that was served without a failure, whatever the line brought and whatever
it took. The server took exactly the bytes of a request off the line: nothing else is accepted as
one. The host has seen that request, and its reply went out in full and was pushed to the peer.
-/

namespace RemoteCall

variable {σ α β : Type}

/-- A frame that is read to its end has no fault. -/
theorem Frame.sound_of_asked {f : Format} {h : Host σ} (F : Frame f) {op : Operation} {s t : σ}
    (hasked : F.asked h s = (.done op, t)) : F.Sound := by
  have hfault := F.fault?_asked h s
  rw [hasked] at hfault
  cases hread : F.reading with
  | done op => exact ⟨op, hread⟩
  | stop e left =>
    rw [hread] at hfault
    exact nomatch hfault

/-- The byte of a command is the one that it is recognised by. -/
theorem Command.toByte_of_ofByte? {b : UInt8} {c : Command} (h : Command.ofByte? b = some c) :
    c.toByte = b := by
  unfold Command.ofByte? at h
  repeat' split at h
  all_goals cases h
  all_goals exact Eq.symm ‹b = _›

namespace Serving

variable {f : Format} {h : Host σ} {x : Serving σ α} {k : α → Serving σ β}

/-- A session that succeeds inside the server succeeds on its connection, and the host is not asked.
-/
theorem onConn_ok {y : Session α} {s t : Served σ} {a : α}
    (hrun : (onConn y : Serving σ α) s = (.ok a, t)) :
    y s.conn = (.ok a, t.conn) ∧ t.host = s.host := by
  obtain ⟨hresult, rfl⟩ := Prod.mk.inj hrun
  exact ⟨Prod.ext hresult rfl, rfl⟩

/-! ### What was read -/

/-- When the computation succeeds it has sent nothing, and what it comes to and what it makes of the
host go with the bytes that it has taken off the line. -/
def Yields (f : Format) (x : Serving σ α) (P : List UInt8 → σ → α → σ → Prop) : Prop :=
  ∀ (s t : Served σ) (a : α), s.conn.format = f → x s = (.ok a, t) →
    t.conn.outgoing = s.conn.outgoing ∧
      ∃ bytes, s.conn.line.inbound.flow = bytes.map .byte ++ t.conn.line.inbound.flow ∧
        P bytes s.host a t.host

/-- What a computation yields may be said more weakly. -/
theorem Yields.imp {P Q : List UInt8 → σ → α → σ → Prop} (hx : Yields f x P)
    (himp : ∀ bytes s a t, P bytes s a t → Q bytes s a t) : Yields f x Q := by
  intro s t a hformat hrun
  obtain ⟨hkept, bytes, hflow, hP⟩ := hx s t a hformat hrun
  exact ⟨hkept, bytes, hflow, himp _ _ _ _ hP⟩

/-- Giving a value takes nothing off the line. -/
theorem yields_pure (a : α) :
    Yields f (pure a : Serving σ α) fun bytes s b t => bytes = [] ∧ b = a ∧ t = s := by
  intro s t b _ hrun
  cases hrun
  exact ⟨rfl, [], rfl, rfl, rfl, rfl⟩

/-- What fails yields nothing. -/
theorem yields_throw (e : Error) (P : List UInt8 → σ → α → σ → Prop) :
    Yields f (throw e : Serving σ α) P :=
  fun _ _ _ _ hrun => nomatch congrArg Prod.fst hrun

/-- The host acts without anything being read or sent. -/
theorem yields_onHost (act : σ → α × σ) :
    Yields f (onHost act) fun bytes s a t => bytes = [] ∧ act s = (a, t) := by
  intro s t a _ hrun
  cases hrun
  exact ⟨rfl, [], rfl, rfl, rfl⟩

/-- What is received is what the reader accepts. -/
theorem yields_receive {reader : Format → Reader α} {Q : List UInt8 → α → Prop}
    (hreader : (reader f).Yields Q) :
    Yields f (onConn (Session.receive reader) : Serving σ α) fun bytes s a t =>
      Q bytes a ∧ t = s := by
  intro s t a hformat hrun
  have hopen := Session.isOpen_of_receive (onConn_ok hrun).1
  simp only [onConn, Session.receive_run hopen, hformat] at hrun
  cases hread : reader f s.conn.line.inbound with
  | mk result later =>
    rw [hread] at hrun
    cases hrun
    obtain ⟨bytes, hflow, hQ⟩ := hreader _ _ _ hread
    exact ⟨rfl, bytes, hflow, hQ, rfl⟩

/-- Parts in a row take their bytes one after another. -/
theorem Yields.bind {P : List UInt8 → σ → α → σ → Prop}
    {Q : α → List UInt8 → σ → β → σ → Prop} (hx : Yields f x P) (hk : ∀ a, Yields f (k a) (Q a)) :
    Yields f (x >>= k) fun bytes s b u =>
      ∃ first more a t, bytes = first ++ more ∧ P first s a t ∧ Q a more t b u := by
  intro s u b hformat hrun
  obtain ⟨a, t, hfirst, hsecond⟩ := exists_of_bind_ok hrun
  obtain ⟨hkept, first, hflow, hP⟩ := hx s t a hformat hfirst
  have hthere : t.conn.format = f := by
    simp only [Connection.outgoing, Prod.mk.injEq] at hkept
    exact hkept.2.2.1.trans hformat
  obtain ⟨hlast, more, hrest, hQ⟩ := hk a t u b hthere hsecond
  refine ⟨hlast.trans hkept, first ++ more, ?_, first, more, a, t.host, rfl, hP, hQ⟩
  rw [hflow, hrest, List.map_append, List.append_assoc]

/-- A path that is read was sent as a payload that spells it. -/
theorem readPath_yields : Yields f (readPath : Serving σ Path) fun bytes s path t =>
    ∃ p : Payload, bytes = p.wire f ∧ p.pathReading = .done path ∧ t = s := by
  rw [readPath, onConn_bind]
  refine ((yields_receive (Reader.yields_string f)).bind
    (Q := fun raw bytes s path t => bytes = [] ∧ t = s ∧
      ∃ dotted, Text.decode? raw = some dotted ∧ path = .parse dotted) fun raw => ?_).imp ?_
  · cases htext : Text.decode? raw with
    | some dotted =>
      refine (yields_pure (Path.parse dotted)).imp ?_
      rintro bytes s path t ⟨hbytes, hpath, ht⟩
      exact ⟨hbytes, ht, dotted, rfl, hpath⟩
    | none => exact yields_throw _ _
  · rintro bytes s path u
      ⟨first, more, raw, t, rfl, ⟨⟨p, rfl, hread⟩, rfl⟩, rfl, rfl, dotted, htext, rfl⟩
    refine ⟨p, List.append_nil _, ?_, rfl⟩
    simp only [Payload.pathReading, hread, Reading.done_andThen, htext]

/-- An argument is accepted as a term, and its value as the host has it. -/
theorem readArgument_yields (h : Host σ) : Yields f (readArgument h) fun bytes s v u =>
    ∃ t : Term f, bytes = t.bytes ∧ t.accepted h s = (.done v, u) := by
  refine ((yields_receive (Reader.yields_value f)).bind
    (Q := fun v bytes s a t => bytes = [] ∧ h.accept v s = (a, t)) fun v => ?_).imp ?_
  · cases v with
    | blob raw => exact yields_onHost fun s => h.adopt s raw
    | _ =>
      refine (yields_pure _).imp ?_
      rintro bytes s a t ⟨hbytes, ha, ht⟩
      refine ⟨hbytes, ?_⟩
      rw [ha, ht]
      rfl
  · rintro bytes s v u ⟨first, more, w, t, rfl, ⟨⟨term, rfl, hread⟩, rfl⟩, rfl, haccept⟩
    refine ⟨term, List.append_nil _, ?_⟩
    rw [Term.accepted, hread]
    simp only [Asking.andThen, Asking.ofReading, haccept]

/-- Arguments that are read were sent as so many terms, and the host has adopted their blobs. -/
theorem readArguments_yields (h : Host σ) (count : Nat) :
    Yields f (readArguments h count) fun bytes s vs u => ∃ ts : List (Term f), ts.length = count ∧
      bytes = Term.allBytes ts ∧ Term.allAccepted h ts s = (.done vs, u) := by
  induction count with
  | zero =>
    refine (yields_pure []).imp ?_
    rintro bytes s vs u ⟨hbytes, hvs, hu⟩
    refine ⟨[], rfl, hbytes, ?_⟩
    rw [hvs, hu]
    rfl
  | succ count ih =>
    refine ((readArgument_yields h).bind fun v => ih.bind fun vs => yields_pure (v :: vs)).imp ?_
    rintro bytes s all u ⟨first, more, v, t, rfl, ⟨term, rfl, hterm⟩, rest, none, vs, w, rfl,
      ⟨ts, rfl, rfl, hts⟩, rfl, rfl, rfl⟩
    refine ⟨term :: ts, rfl, ?_, ?_⟩
    · rw [List.append_nil]
      rfl
    · simp only [Term.allAccepted, Asking.andThen, hterm, hts, Asking.ofReading]

/-- A body is accepted as that of a frame, and the operation is what the host is asked for. -/
theorem readOperation_yields (h : Host σ) (c : Command) :
    Yields f (readOperation h c) fun bytes s op u => ∃ F : Frame f, F.command = c ∧
      bytes = F.body ∧ F.asked h s = (.done op, u) := by
  cases c with
  | call =>
    refine (readPath_yields.bind fun path => (yields_receive (Reader.yields_word f)).bind
      fun count => (readArguments_yields h count.toNat).bind fun args => yields_pure _).imp ?_
    rintro bytes s op u ⟨first, more, path, t, rfl, ⟨p, rfl, hpath, rfl⟩, word, rest, count, v, rfl,
      ⟨rfl, rfl⟩, args, none, vs, w, rfl, ⟨ts, hlength, rfl, hts⟩, rfl, rfl, rfl⟩
    have hcount : UInt32.ofNat ts.length = count := by rw [hlength, UInt32.ofNat_toNat]
    refine ⟨.call p ts (hlength ▸ count.toNat_lt), rfl, ?_, ?_⟩
    · rw [Frame.body, hcount, List.append_nil]
    · simp only [Frame.asked, Asking.andThen, Asking.ofReading, hpath, hts]
  | get =>
    refine (readPath_yields.bind fun path => yields_pure (Operation.get path)).imp ?_
    rintro bytes s op u ⟨first, more, path, t, rfl, ⟨p, rfl, hpath, rfl⟩, rfl, rfl, rfl⟩
    refine ⟨.get p, rfl, List.append_nil _, ?_⟩
    simp only [Frame.asked, Asking.ofReading, hpath, Reading.done_andThen]
  | set =>
    refine (readPath_yields.bind fun path => (readArgument_yields h).bind fun key =>
      (readArgument_yields h).bind fun value => yields_pure _).imp ?_
    rintro bytes s op u ⟨first, more, path, t, rfl, ⟨p, rfl, hpath, rfl⟩, second, rest, k, v, rfl,
      ⟨key, rfl, hkey⟩, third, none, w, z, rfl, ⟨value, rfl, hvalue⟩, rfl, rfl, rfl⟩
    refine ⟨.set p key value, rfl, ?_, ?_⟩
    · rw [Frame.body, List.append_nil]
    · simp only [Frame.asked, Asking.andThen, Asking.ofReading, hpath, hkey, hvalue]
  | connect => exact yields_throw _ _

/-! ### What was sent -/

/-- When the computation succeeds with the host in this state, it has sent the whole emission. -/
def Sends (f : Format) (x : Serving σ Unit) (host : σ) (e : Emission) : Prop :=
  ∀ (c : Connection) (t : Served σ), c.OpenIn f → x ⟨c, host⟩ = (.ok (), t) →
    e.failure = none ∧ t.conn.line.written = c.line.written ++ e.bytes

/-- What a session leaves on the line is what the server sends with it. -/
theorem sends_onConn {y : Session Unit} {e : Emission} (hy : Session.Writes f y e) (host : σ) :
    Sends f (onConn y) host e := by
  intro c t hc hrun
  rcases hy c hc with ⟨failure, later, hfails, -⟩ | ⟨later, hends, -, hwritten⟩
  · simp only [onConn, hfails] at hrun
    cases hrun
  · simp only [onConn, hends] at hrun
    cases hfailure : e.failure with
    | none =>
      rw [hfailure] at hrun
      cases hrun
      exact ⟨rfl, hwritten⟩
    | some failure =>
      rw [hfailure] at hrun
      cases hrun

/-- What fails has nothing to send. -/
theorem sends_throw (failure : Error) (host : σ) (e : Emission) : Sends f (throw failure) host e :=
  fun _ _ _ hrun => nomatch congrArg Prod.fst hrun

/-- What is sent behind an act of the host is sent in the state that it has left. -/
theorem sends_onHost_bind {act : σ → α × σ} {y : α → Serving σ Unit} {host : σ} {e : Emission}
    (hy : Sends f (y (act host).1) (act host).2 e) : Sends f (onHost act >>= y) host e := by
  intro c t hc hrun
  rw [bind_of_ok (rfl : onHost act ⟨c, host⟩ = (.ok (act host).1, ⟨c, (act host).2⟩))] at hrun
  exact hy c t hc hrun

/-- Values are sent one after the other. -/
theorem writeValues_writes (vs : List Value) :
    Session.Writes f (writeValues vs) (.values f vs) := by
  induction vs with
  | nil => exact fun c hc => .inr ⟨c, rfl, hc, (List.append_nil _).symm⟩
  | cons v vs ih => exact (Session.send_writes f (v.encode ·)).bind ih

open Session in
/-- A failure of the host is sent with its code and its text. -/
theorem writeFailure_sends (e : HostError) (host : σ) :
    Sends f (writeFailure e) host (failureReply f e.code e.message) :=
  sends_onConn ((send_writes f fun _ => .byte 1).bind ((send_writes f (.word · e.code)).bind
    (send_writes f (.text · e.message)))) host

open Session in
/-- An operation that is carried out without a failure is answered in full. -/
theorem respond_sends (h : Host σ) (op : Operation) (s : σ) :
    Sends f (respond h op) s (op.answer f h s) := by
  cases op with
  | call path args =>
    refine sends_onHost_bind ?_
    dsimp only [Operation.answer]
    cases (h.invoke s path args).1 with
    | error e => exact writeFailure_sends e _
    | ok results =>
      dsimp only
      split
      · exact fun c t _ hrun => nomatch congrArg Prod.fst hrun
      · exact sends_onConn ((send_writes f fun _ => .byte 0).bind
          ((send_writes f (.word · (UInt32.ofNat results.length))).bind
            (writeValues_writes results))) _
  | get path =>
    refine sends_onHost_bind ?_
    dsimp only [Operation.answer]
    cases h.resolve s path with
    | ok v => exact sends_onConn (send_writes f (v.encode ·)) s
    | error e =>
      dsimp only
      split
      · exact sends_onConn (send_writes f (Value.nil.encode ·)) s
      · exact sends_throw _ s _
  | set path key value =>
    refine sends_onHost_bind ?_
    dsimp only [Operation.answer]
    cases (h.assign s path key value).1 with
    | ok _ => exact sends_onConn (send_writes f fun _ => .byte 0) _
    | error e => exact writeFailure_sends e _

/-! ### Whole requests -/

/-- The request was served in full: it is gone from the line, the host has seen it, and its reply
was sent and pushed. -/
structure Fulfils (own : Format) (h : Host σ) (s : Served σ) (r : Request f) (t : Served σ) :
    Prop where
  unread : s.conn.line.inbound.flow = r.bytes.map .byte ++ t.conn.line.inbound.flow
  host_eq : t.host = r.effect h s.host
  complete : (r.reply own h s.host).failure = none
  written : t.conn.line.written = s.conn.line.written ++ (r.reply own h s.host).bytes
  pushed : t.conn.line.outbound.getLast? = some .flush
  isOpen : t.conn.isOpen = true
  native_eq : t.conn.native = own
  format_eq : t.conn.format = r.next own

/-- A push that succeeds sends nothing and stands at the end of the output. -/
theorem flush_ok {c : Connection} {host : σ} {t : Served σ} (hc : c.OpenIn f)
    (hrun : (onConn Session.flush : Serving σ Unit) ⟨c, host⟩ = (.ok (), t)) :
    t.host = host ∧ t.conn.incoming = c.incoming ∧ t.conn.line.written = c.line.written ∧
      t.conn.line.outbound.getLast? = some .flush := by
  have hsent := sends_onConn (Session.flush_writes f) host c t hc hrun
  obtain ⟨hkept, hhost⟩ := replies_onConn (σ := σ) Session.flush_keeps ⟨c, host⟩
  rw [hrun] at hkept hhost
  refine ⟨hhost, hkept, hsent.2.trans (List.append_nil _), ?_⟩
  have hflush : (c.line.flush.1, (⟨{ c with line := c.line.flush.2 }, host⟩ : Served σ)) =
      (.ok (), t) := by
    rw [← hrun, onConn, Session.flush_run hc.isOpen]
  obtain ⟨hok, rfl⟩ := Prod.mk.inj hflush
  rw [Line.outbound_of_flush hok]
  exact List.getLast?_concat

/-- The consent is one byte. -/
theorem giveConsent_writes : Session.Writes f giveConsent (.byte Status.ready.toByte) := by
  have hwrites := (Session.send_writes f fun _ => .byte Status.ready.toByte).bind
    (Session.flush_writes f)
  rwa [Emission.append_ofBytes_nil] at hwrites

/-- Once its command is read, a body that is served without a failure is that of a frame, which is
served in full. -/
theorem serveBody_ok {c : Command} {s t : Served σ} (hs : s.conn.OpenIn f)
    (hrun : serveBody h c s = (.ok (), t)) :
    ∃ F : Frame f, F.command = c ∧ F.Sound ∧
      s.conn.line.inbound.flow = F.body.map .byte ++ t.conn.line.inbound.flow ∧
      t.host = F.effect h s.host ∧ (F.reply h s.host).failure = none ∧
      t.conn.line.written = s.conn.line.written ++ (F.reply h s.host).bytes ∧
      t.conn.line.outbound.getLast? = some .flush ∧ t.conn.standing = s.conn.standing := by
  obtain ⟨_, asked, hconsent, hrest⟩ := exists_of_bind_ok hrun
  obtain ⟨op, read, hread, hrest⟩ := exists_of_bind_ok hrest
  obtain ⟨_, answered, hrespond, hflush⟩ := exists_of_bind_ok hrest
  -- The consent leaves the input and the host, the body is read without a byte of output, and the
  -- answer leaves the input again.
  have hconsented := sends_onConn giveConsent_writes s.host s.conn asked hs hconsent
  obtain ⟨hsame, hhost⟩ := replies_onConn (σ := σ) giveConsent_keeps s
  rw [hconsent] at hsame hhost
  have hasked := hs.of_incoming hsame
  obtain ⟨hquiet, bytes, hflow, F, hcommand, rfl, hop⟩ :=
    readOperation_yields h c asked read op hasked.format_eq hread
  have hstood := Connection.standing_of_outgoing hquiet
  have hreadopen := hasked.of_standing hstood
  have hanswer := respond_sends h op read.host read.conn answered hreadopen hrespond
  obtain ⟨hkept, heffect⟩ := respond_replies h op read
  rw [hrespond] at hkept heffect
  obtain ⟨hpushed, hstill, hnothing, hlast⟩ := flush_ok (hreadopen.of_incoming hkept) hflush
  rw [show asked.host = s.host from hhost] at hop
  refine ⟨F, hcommand, F.sound_of_asked hop, ?_, ?_, ?_, ?_, hlast, ?_⟩
  · rw [← Connection.inbound_of_incoming hsame, hflow, Connection.inbound_of_incoming hstill,
      Connection.inbound_of_incoming hkept]
  · rw [hpushed, heffect, Frame.effect, hop]
  · rw [Frame.reply, hop]
    exact Emission.append_failure_eq_none.mpr ⟨rfl, hanswer.1⟩
  · rw [hnothing, hanswer.2, Connection.written_of_outgoing hquiet, hconsented.2, List.append_assoc,
      Frame.bytes_reply, hop]
    rfl
  · exact (Connection.standing_of_incoming hstill).trans
      ((Connection.standing_of_incoming hkept).trans
        (hstood.trans (Connection.standing_of_incoming hsame)))

/-- A command is accepted as the first byte of the flow. -/
theorem readCommand_ok {c d : Connection} {b : UInt8}
    (hrun : Session.readCommand c = (.ok b, d)) :
    c.isOpen = true ∧ c.line.inbound.flow = .byte b :: d.line.inbound.flow ∧
      d.outgoing = c.outgoing := by
  obtain ⟨first, read, hread, hrest⟩ := exists_of_bind_ok hrun
  have hopen := Session.isOpen_of_receive hread
  rw [Session.receive_run hopen] at hread
  cases hnext : Reader.byte? c.line.inbound with
  | mk result later =>
    rw [hnext] at hread
    cases hread
    cases first with
    | none => exact nomatch congrArg Prod.fst hrest
    | some b' =>
      cases hrest
      exact ⟨hopen, Inbound.flow_of_next hnext, rfl⟩

/-- A settled format that is in effect was announced in full. -/
theorem settle_written {c d : Connection} {agreed : Format} (hc : c.OpenIn f)
    (hrun : Session.settle agreed c = (.ok (), d)) :
    d.line.written = c.line.written ++ (Header.ofFormat agreed).encode := by
  have hwrites := (Session.send_writes f fun _ => .ofBytes (Header.ofFormat agreed).encode).bind
    (Session.flush_writes f)
  rw [Session.settle_eq] at hrun
  obtain ⟨_, announced, hannounce, hadopt⟩ := exists_of_bind_ok hrun
  cases hadopt
  rcases hwrites c hc with ⟨e, later, hfails, -⟩ | ⟨later, hends, -, hwritten⟩
  · exact nomatch (congrArg Prod.fst hannounce).symm.trans (congrArg Prod.fst hfails)
  · obtain rfl : announced = later :=
      (congrArg Prod.snd hannounce).symm.trans (congrArg Prod.snd hends)
    rw [hwritten, Emission.append_ofBytes_nil]
    rfl

/-- A handshake that succeeds has taken a valid header off the line and answered it. -/
theorem negotiateServer_ok {c d : Connection} (hc : c.OpenIn f)
    (hrun : Session.negotiateServer c = (.ok (), d)) :
    ∃ header peer, Header.decode header = .ok peer ∧
      c.line.inbound.flow = header.map .byte ++ d.line.inbound.flow ∧
      d.OpenIn (c.native.reconcile peer) ∧ d.native = c.native ∧
      d.line.written = c.line.written ++ (Header.ofFormat (c.native.reconcile peer)).encode := by
  obtain ⟨header, read, hread, hrest⟩ := exists_of_bind_ok hrun
  have hreceive := Session.receive_run hc.isOpen fun _ => Reader.take headerLength
  cases htake : Reader.take headerLength c.line.inbound with
  | mk result later =>
    rw [hread, htake] at hreceive
    obtain rfl : result = .ok header := (congrArg Prod.fst hreceive).symm
    obtain rfl : read = c.withInput later := congrArg Prod.snd hreceive
    obtain ⟨bytes, hflow, hbytes, -⟩ := Reader.yields_take headerLength _ _ _ htake
    cases hheader : Header.decode header with
    | error e =>
      rw [hheader, bind_of_error (ofExcept_error_run e)] at hrest
      exact nomatch congrArg Prod.fst hrest
    | ok peer =>
      rw [hheader] at hrest
      have hsettle : Session.settle (c.native.reconcile peer) (c.withInput later) = (.ok (), d) :=
        hrest
      obtain ⟨hd, hinput, -, hnative⟩ :=
        Session.settle_ok (c := c.withInput later) hc.isOpen hsettle
      have hsent := settle_written (hc.withInput later) hsettle
      refine ⟨header, peer, hheader, ?_, hd, hnative, hsent⟩
      rw [hflow, hbytes, hinput]
      rfl

/-- A connection behind its first handshake is open. -/
theorem acceptHandshake_ok {c d : Connection} (hrun : Session.acceptHandshake c = (.ok (), d)) :
    d.isOpen = true := by
  obtain ⟨first, greeted, hread, hrest⟩ := exists_of_bind_ok hrun
  have hopen := Session.isOpen_of_receive hread
  have hquiet : greeted.outgoing = c.outgoing := by
    have hkeeps := Session.receive_keeps (fun _ => Reader.byte) c
    rwa [show Session.receive (fun _ => Reader.byte) c = (.ok first, greeted) from hread] at hkeeps
  have hgreeted : greeted.OpenIn c.format :=
    Connection.OpenIn.of_standing ⟨hopen, rfl⟩ (Connection.standing_of_outgoing hquiet)
  dsimp only at hrest
  split at hrest
  · exact nomatch congrArg Prod.fst hrest
  · obtain ⟨_, _, -, -, hd, -, -⟩ := negotiateServer_ok hgreeted hrest
    exact hd.isOpen

/-- What was served without a failure was a request, and it was served in full. -/
theorem serveOne_ok {s t : Served σ} (hrun : serveOne h s = (.ok (), t)) :
    ∃ r : Request s.conn.format, Fulfils s.conn.native h s r t := by
  obtain ⟨b, read, hread, hrest⟩ := exists_of_bind_ok hrun
  obtain ⟨hcommand, hhost⟩ := onConn_ok hread
  obtain ⟨hopen, hflow, hquiet⟩ := readCommand_ok hcommand
  have hstood := Connection.standing_of_outgoing hquiet
  have hthere : read.conn.OpenIn s.conn.format :=
    Connection.OpenIn.of_standing ⟨hopen, rfl⟩ hstood
  have hnative : read.conn.native = s.conn.native := congrArg (·.2.1) hstood
  have hwritten := Connection.written_of_outgoing hquiet
  cases hbyte : Command.ofByte? b with
  | none =>
    simp only [hbyte] at hrest
    obtain ⟨_, _, hrefused, -⟩ := exists_of_bind_ok hrest
    obtain ⟨_, _, -, hflush⟩ := exists_of_bind_ok (onConn_ok hrefused).1
    obtain ⟨_, _, -, hthrow⟩ := exists_of_bind_ok hflush
    exact nomatch congrArg Prod.fst hthrow
  | some c =>
    obtain rfl : b = c.toByte := (Command.toByte_of_ofByte? hbyte).symm
    by_cases hc : c = .connect
    · subst hc
      rw [serveOne_of_connect hread] at hrun
      obtain ⟨_, settled, hnegotiate, hflush⟩ := exists_of_bind_ok hrun
      obtain ⟨hsettle, hsettled⟩ := onConn_ok hnegotiate
      obtain ⟨header, peer, hheader, hbytes, hopenIn, hown, hsent⟩ :=
        negotiateServer_ok hthere hsettle
      rw [hnative] at hopenIn hsent
      obtain ⟨hpushed, hkept, hnothing, hlast⟩ := flush_ok hopenIn hflush
      have hlater := hopenIn.of_incoming hkept
      refine ⟨.greet header peer hheader, ?_, ?_, rfl, ?_, hlast, hlater.isOpen, ?_,
        hlater.format_eq⟩
      · rw [hflow, hbytes, Connection.inbound_of_incoming hkept]
        rfl
      · exact hpushed.trans (hsettled.trans hhost)
      · rw [hnothing, hsent, hwritten]
        rfl
      · exact (congrArg (·.2.1) (Connection.standing_of_incoming hkept)).trans (hown.trans hnative)
    · rw [serveOne_of_body hc hread] at hrun
      obtain ⟨F, rfl, hsound, hbody, heffect, hcomplete, hsent, hlast, hkept⟩ :=
        serveBody_ok hthere hrun
      have hlater := hthere.of_standing hkept
      rw [hhost] at heffect hcomplete hsent
      refine ⟨.frame F hsound, ?_, heffect, hcomplete, ?_, hlast, hlater.isOpen, ?_,
        hlater.format_eq⟩
      · rw [hflow, hbody]
        rfl
      · rw [hsent, hwritten]
        rfl
      · exact (congrArg (·.2.1) hkept).trans hnative

end Serving

end RemoteCall
