import RemoteCall.Proofs.Client.LifeCycle
import RemoteCall.Proofs.Serve.Flow

/-!
# How the input is cut

Bytes come in chunks, and reads are interrupted. Neither can be told from what is done with a line:
handshakes, a server's loop and everything that is done with a handle come to the same outcome when
the line brings the same flow, they send the same, and they leave the line with the same flow.
-/

namespace RemoteCall

variable {α : Type}

/-! ### Clients -/

namespace Exchange

open Session

/-- Starting a request reads the flow alone. -/
theorem respects_start (command : Command) : Session.Respects (start command) := by
  refine (respects_send _).bind fun _ => respects_flush.bind fun _ => ?_
  refine respects_readByte.bind fun answer => ?_
  split
  · exact respects_pure ()
  · split
    · exact respects_throw _
    · exact respects_throw _

/-- Sending values reads nothing, so the flow alone. -/
theorem respects_sendValues (vs : List Value) : Session.Respects (sendValues vs) := by
  induction vs with
  | nil => exact respects_pure ()
  | cons v vs ih => exact (respects_send _).bind fun _ => ih

/-- Reading results reads the flow alone. -/
theorem respects_readValues (count : Nat) : Session.Respects (readValues count) := by
  induction count with
  | zero => exact respects_pure []
  | succ count ih =>
    exact respects_readValue.bind fun v => ih.bind fun vs => respects_pure (v :: vs)

/-- Reading the failure of the other side reads the flow alone. -/
theorem respects_remoteFailure : Session.Respects (remoteFailure : Session α) :=
  respects_readWord.bind fun _ => respects_readString.bind fun _ => respects_throw _

/-- A call reads the flow alone, whichever time limits it sets on the way. -/
theorem respects_call (settings : ClientSettings) (p : Path) (args : List Value) :
    Session.Respects (call settings p args) := by
  have hoffered : Session.Respects (do
      start .call
      writeText p.text
      writeWord (UInt32.ofNat args.length)
      sendValues args
      flush
      setTimeout settings.waitTimeout
      let status ← observing readByte
      setTimeout settings.communicationTimeout
      let status ← MonadExcept.ofExcept status
      if status = 0 then
        let count ← readWord
        readValues count.toNat
      else if status = 1 then remoteFailure
      else throw (.protocol (.callStatus status))) := by
    refine (respects_start .call).bind fun _ => (respects_send _).bind fun _ => ?_
    refine (respects_send _).bind fun _ => (respects_sendValues args).bind fun _ => ?_
    refine respects_flush.bind fun _ => (respects_setTimeout _).bind fun _ => ?_
    refine respects_readByte.observing.bind fun status => (respects_setTimeout _).bind fun _ => ?_
    refine (respects_ofExcept status).bind fun status => ?_
    split
    · exact respects_readWord.bind fun count => respects_readValues count.toNat
    · split
      · exact respects_remoteFailure
      · exact respects_throw _
  unfold call
  split
  · exact (respects_throw _).bind fun _ => hoffered
  · exact hoffered

/-- Reading a value at a path reads the flow alone. -/
theorem respects_get (p : Path) : Session.Respects (get p) :=
  (respects_start .get).bind fun _ => (respects_send _).bind fun _ =>
    respects_flush.bind fun _ => respects_readValue

/-- Assigning a value at a path reads the flow alone. -/
theorem respects_set (p : Path) (key value : Value) : Session.Respects (set p key value) := by
  refine (respects_start .set).bind fun _ => (respects_send _).bind fun _ => ?_
  refine (respects_send _).bind fun _ => (respects_send _).bind fun _ => ?_
  refine respects_flush.bind fun _ => respects_readByte.bind fun status => ?_
  split
  · exact respects_pure ()
  · split
    · exact respects_remoteFailure
    · exact respects_throw _

/-- Connecting reads the flow alone. -/
theorem respects_connect (settings : ClientSettings) : Session.Respects (connect settings) := by
  refine (respects_setTimeout _).bind fun _ =>
    respects_negotiateClient.observing.bind fun result => ?_
  cases result with
  | ok u => exact respects_pure ()
  | error e => exact respects_close.bind fun _ => respects_throw _

end Exchange

namespace Deed

open Session Exchange

/-- A path that is checked first adds nothing that is read. -/
theorem respects_checked (settings : ClientSettings) (p : Path) {x : Session α}
    (hx : Session.Respects x) :
    Session.Respects (checked settings p x) :=
  (respects_ofExcept _).bind fun _ => hx

/-- Whatever is attempted with a handle reads the flow alone. -/
theorem respects_attempt (settings : ClientSettings) (d : Deed) :
    Session.Respects (d.attempt settings) := by
  cases d with
  | operate op =>
    cases op with
    | call path args => exact respects_checked settings path (respects_call settings path args)
    | get path => exact respects_checked settings path (respects_get path)
    | set path key value => exact respects_checked settings path (respects_set path key value)
  | reconnect => exact respects_negotiateClient
  | close => exact respects_close
  | watch handler => exact respects_pure ()
  | unwatch => exact respects_pure ()

end Deed

namespace Handle

variable {h g : Handle}

/-- The handles differ in nothing but how the input of their connections is cut. -/
structure Alike (h g : Handle) : Prop where
  conn : h.conn.Alike g.conn
  settings : h.settings = g.settings
  handler : h.handler = g.handler
  reports : h.reports = g.reports

/-- What the caller gets of these deeds, in order. -/
def outcomes : Handle → List Deed → List ((d : Deed) × Except Error d.Result)
  | _, [] => []
  | h, d :: rest => ⟨d, (d.run h).1⟩ :: outcomes (d.run h).2 rest

/-- Handles that are alike are alike when both are closed. -/
theorem Alike.close (halike : h.Alike g) : h.close.Alike g.close :=
  { conn := (Session.respects_close.alike _ _ halike.conn).2
    settings := halike.settings
    handler := halike.handler
    reports := halike.reports }

/-- Failures are told alike. -/
theorem Alike.tell [Inhabited α] (e : Error) (halike : h.Alike g) :
    (tell e h : Except Error α × Handle).1 = (tell e g).1 ∧
      (tell e h : Except Error α × Handle).2.Alike (tell (α := α) e g).2 := by
  cases hhandler : g.handler with
  | some handler =>
    rw [tell_of_some e hhandler, tell_of_some e (halike.handler.trans hhandler), halike.reports]
    exact ⟨rfl, halike.conn, halike.settings, halike.handler, rfl⟩
  | none =>
    rw [tell_of_none e hhandler, tell_of_none e (halike.handler.trans hhandler)]
    exact ⟨rfl, halike⟩

/-- Outcomes are handed on alike. -/
theorem Alike.finish [Inhabited α] (outcome : Except Error α) (halike : h.Alike g) :
    (finish outcome h).1 = (finish outcome g).1 ∧
      (finish outcome h).2.Alike (finish outcome g).2 := by
  cases outcome with
  | ok a => exact ⟨rfl, halike⟩
  | error e =>
    unfold Handle.finish
    dsimp only
    split
    · exact halike.close.tell e
    · exact halike.tell e

/-- A deed comes to the same on handles that are alike, and leaves them alike. -/
theorem Alike.run (d : Deed) (halike : h.Alike g) :
    (d.run h).1 = (d.run g).1 ∧ (d.run h).2.Alike (d.run g).2 := by
  obtain ⟨hresult, hconn⟩ := (d.respects_attempt g.settings).alike _ _ halike.conn
  rw [d.run_eq h, d.run_eq g, halike.settings, hresult]
  exact Alike.finish _ ⟨hconn, rfl, by rw [halike.handler], halike.reports⟩

/-- Any deeds come to the same on handles that are alike, and leave them alike. -/
theorem Alike.afterAll (deeds : List Deed) (halike : h.Alike g) :
    h.outcomes deeds = g.outcomes deeds ∧ (h.afterAll deeds).Alike (g.afterAll deeds) := by
  induction deeds generalizing h g with
  | nil => exact ⟨rfl, halike⟩
  | cons d rest ih =>
    obtain ⟨hresult, hlater⟩ := halike.run d
    obtain ⟨houtcomes, hlast⟩ := ih hlater
    exact ⟨by rw [outcomes, outcomes, hresult, houtcomes], hlast⟩

end Handle

/-! ### Inputs with one flow -/

/-- The session comes to the same result on both connections and leaves them alike: with the same
unread flow, the same output, state, formats and time limits. -/
def Session.SameOn (x : Session α) (c d : Connection) : Prop :=
  (x c).1 = (x d).1 ∧ (x c).2.Alike (x d).2

/-- Both handshakes came to handles that are alike, or they failed with the same error. -/
inductive Handle.SameStart : Except Error Handle → Except Error Handle → Prop
  | ok {h g : Handle} (alike : h.Alike g) : SameStart (.ok h) (.ok g)
  | error (e : Error) : SameStart (.error e) (.error e)

/-- Whatever is done on a line comes to the same whether it brings one input or the other. -/
structure Inbound.Interchangeable (i j : Inbound) : Prop where
  accept : ∀ c : Connection,
    Session.acceptHandshake.SameOn (c.withInput i) (c.withInput j)
  negotiateServer : ∀ c : Connection,
    Session.negotiateServer.SameOn (c.withInput i) (c.withInput j)
  negotiateClient : ∀ c : Connection,
    Session.negotiateClient.SameOn (c.withInput i) (c.withInput j)
  /-- The loop of a server ends in the same way, with the host in the same state. -/
  serve : ∀ {σ : Type} (h : Host σ) (c : Connection) (host : σ),
    (serve h ⟨c.withInput i, host⟩).1 = (serve h ⟨c.withInput j, host⟩).1 ∧
      (serve h ⟨c.withInput i, host⟩).2.conn.Alike (serve h ⟨c.withInput j, host⟩).2.conn ∧
      (serve h ⟨c.withInput i, host⟩).2.host = (serve h ⟨c.withInput j, host⟩).2.host
  /-- A handle comes of both lines, or of neither. -/
  ofLine : ∀ (line : Line) (settings : ClientSettings),
    Handle.SameStart (Handle.ofLine { line with inbound := i } settings).1
        (Handle.ofLine { line with inbound := j } settings).1 ∧
      (Handle.ofLine { line with inbound := i } settings).2.Alike
        (Handle.ofLine { line with inbound := j } settings).2
  /-- Whatever is done with handles that are alike comes to the same, deed by deed. -/
  deeds : ∀ (handle : Handle) (deeds : List Deed),
    ({ handle with conn := handle.conn.withInput i } : Handle).outcomes deeds =
        ({ handle with conn := handle.conn.withInput j } : Handle).outcomes deeds ∧
      (({ handle with conn := handle.conn.withInput i } : Handle).afterAll deeds).Alike
        (({ handle with conn := handle.conn.withInput j } : Handle).afterAll deeds)

namespace Handle

/-- Lines with the same flow give the same start and handles that are alike. -/
theorem ofLine_alike {line line' : Line} (settings : ClientSettings)
    (halike : (Connection.ofLine line settings.format).Alike (.ofLine line' settings.format)) :
    SameStart (ofLine line settings).1 (ofLine line' settings).1 ∧
      (ofLine line settings).2.Alike (ofLine line' settings).2 := by
  obtain ⟨hresult, hleft⟩ := (Exchange.respects_connect settings).alike _ _ halike
  unfold ofLine
  generalize Exchange.connect settings (.ofLine line settings.format) = ran at hresult hleft ⊢
  generalize Exchange.connect settings (.ofLine line' settings.format) = ran' at hresult hleft ⊢
  obtain ⟨result, conn⟩ := ran
  obtain ⟨result', conn'⟩ := ran'
  obtain rfl : result = result' := hresult
  cases result with
  | ok u => exact ⟨.ok ⟨hleft, rfl, rfl, rfl⟩, hleft⟩
  | error e => exact ⟨.error e, hleft⟩

end Handle

/-- How input is cut into chunks, and where reads are interrupted, makes no difference: it is enough
that the bytes, the failures and the ends of the stream come in the same order. -/
theorem interchangeable_of_flow {i j : Inbound} (hflow : i.flow = j.flow) :
    i.Interchangeable j := by
  have halike := fun c : Connection => c.alike_withInput hflow
  refine
    { accept := fun c => Session.respects_acceptHandshake.alike _ _ (halike c)
      negotiateServer := fun c => Session.respects_negotiateServer.alike _ _ (halike c)
      negotiateClient := fun c => Session.respects_negotiateClient.alike _ _ (halike c)
      serve := ?_
      ofLine := ?_
      deeds := ?_ }
  · intro σ h c host
    obtain ⟨hresult, hleft⟩ := (Serving.respects_serve h).alike ⟨c.withInput i, host⟩
      ⟨c.withInput j, host⟩ (Prod.ext (halike c) rfl)
    exact ⟨hresult, Prod.mk.inj hleft⟩
  · intro line settings
    exact Handle.ofLine_alike settings (halike (.ofLine line settings.format))
  · intro handle deeds
    exact Handle.Alike.afterAll deeds ⟨halike handle.conn, rfl, rfl, rfl⟩

/-- A greeting that comes all at once before the line falls silent. -/
def greetingAtOnce : Inbound :=
  { coming := [.chunk (Session.greetingBytes .host), .fault (.plain .timedOut)] }

/-- The same greeting in three pieces, with reads interrupted in front of it, inside it and behind
it. -/
def greetingInPieces : Inbound :=
  { coming := [.fault (.plain .interrupted), .chunk ((Session.greetingBytes .host).take 1),
      .chunk (((Session.greetingBytes .host).drop 1).take 4), .fault (.plain .interrupted),
      .fault (.plain .interrupted), .chunk ((Session.greetingBytes .host).drop 5),
      .fault (.plain .interrupted), .fault (.plain .timedOut)] }

/-- A server accepts the greeting in pieces as it accepts it at once. -/
theorem interchangeable_of_flow_greeting :
    greetingInPieces.flow = greetingAtOnce.flow ∧
      greetingInPieces.Interchangeable greetingAtOnce ∧
      (Session.acceptHandshake (.ofLine { inbound := greetingInPieces } .host)).1.isOk = true := by
  have hflow : greetingInPieces.flow = greetingAtOnce.flow := by decide
  have hsame := interchangeable_of_flow hflow
  refine ⟨hflow, hsame, ?_⟩
  have hresult := (hsame.accept (.ofLine { inbound := greetingAtOnce } .host)).1
  have haccepted :
      (Session.acceptHandshake (.ofLine { inbound := greetingAtOnce } .host)).1.isOk = true := by
    decide +kernel
  exact (congrArg Except.isOk hresult).trans haccepted

end RemoteCall
