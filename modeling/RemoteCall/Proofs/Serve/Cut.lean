import RemoteCall.Proofs.Serve.Stream
import RemoteCall.Proofs.Wire.Cut

/-!
# Requests cut short

A server that finds only a beginning of a request fails as the line does, at the end of the stream
or with the failure that stands there, and the beginning is lost. By then it may have given its
consent, and its host may have adopted the blobs that came in as a whole. The host is not asked for
anything else, for an operation is asked for when its request is read to the end.
-/

namespace RemoteCall

variable {σ α β : Type}

namespace Serving

variable {f own : Format} {h : Host σ} {x : Serving σ α} {k : α → Serving σ β}
  {bytes more part missing : List UInt8}

/-- With only these bytes before it the computation fails as the line does and sends nothing. The
bytes are lost, and the host has adopted blobs at most. -/
def Breaks (f : Format) (h : Host σ) (x : Serving σ α) (part : List UInt8) : Prop :=
  ∀ (s : Served σ) (after later : List Arrival) (e : Error), s.conn.OpenIn f →
    s.conn.line.inbound.Brings part after → Inbound.Meets after e later →
      ∃ host, x s = (.error e, ⟨s.conn.withInput ⟨[], later⟩, host⟩) ∧ h.Adopts s.host host

/-- The computation needs all of these bytes: it breaks off with any strict beginning of them. -/
def Needs (f : Format) (h : Host σ) (x : Serving σ α) (bytes : List UInt8) : Prop :=
  ∀ part missing : List UInt8, part ++ missing = bytes → missing ≠ [] → Breaks f h x part

/-- A sequence breaks off where its first part does. -/
theorem Breaks.bind (hx : Breaks f h x part) : Breaks f h (x >>= k) part := by
  intro s after later e hopen hin hmeets
  obtain ⟨host, hrun, hadopts⟩ := hx s after later e hopen hin hmeets
  exact ⟨host, bind_of_error hrun, hadopts⟩

/-- Receiving breaks off where its reader does. -/
theorem breaks_receive (h : Host σ) {reader : Format → Reader α}
    (hreader : Reader.Breaks (reader f) part) :
    Breaks f h (onConn (Session.receive reader)) part := by
  intro s after later e hopen hin hmeets
  have hrun := Session.receive_run hopen.isOpen reader
  rw [hopen.format_eq, hreader _ _ _ _ hin hmeets] at hrun
  refine ⟨s.host, ?_, .nothing _⟩
  exact onConn_of_run hrun

/-- Receiving needs the bytes that its reader needs. -/
theorem needs_receive (h : Host σ) {reader : Format → Reader α}
    (hreader : Reader.Needs (reader f) bytes) :
    Needs f h (onConn (Session.receive reader)) bytes :=
  fun part missing hpart hmissing => breaks_receive h (hreader part missing hpart hmissing)

/-- Computations in a row need the bytes of both, if the first one comes to its end. -/
theorem Needs.bind {r : Asking σ α} (hneeds : Needs f h x bytes) (hx : Reads f x bytes r)
    (hr : ∀ s, ∃ a t, r s = (.done a, t) ∧ h.Adopts s t ∧ Needs f h (k a) more) :
    Needs f h (x >>= k) (bytes ++ more) := by
  intro part missing hpart hmissing
  rcases Reader.append_eq_append_cases hpart with ⟨left, hleft, hfirst⟩ | ⟨begun, rfl, hsecond⟩
  · exact (hneeds part left hfirst hleft).bind
  · intro s after later e hopen hin hmeets
    obtain ⟨a, t, hdone, hst, hk⟩ := hr s.host
    obtain ⟨middle, hrun, hmiddle⟩ := hx s begun after hopen hin
    rw [hdone] at hrun hmiddle
    obtain ⟨u, hlater, htu⟩ := hk begun missing hsecond hmissing ⟨s.conn.withInput middle, t⟩
      after later e (hopen.withInput middle) hmiddle hmeets
    exact ⟨u, (bind_of_ok hrun).trans hlater, hst.trans htu⟩

/-- What is made of the result alone needs nothing more. -/
theorem Needs.bind_pure (hneeds : Needs f h x bytes) : Needs f h (x >>= k) bytes :=
  fun part missing hpart hmissing => (hneeds part missing hpart hmissing).bind

/-- Reading a path needs all of its payload. -/
theorem needs_path (h : Host σ) {p : Payload} {path : Path} (hread : p.pathReading = .done path) :
    Needs f h readPath (p.wire f) := by
  obtain ⟨bs, hbs, -⟩ := Reading.andThen_eq_done.mp hread
  rw [readPath, onConn_bind]
  exact (needs_receive h (Payload.needs_string hbs)).bind_pure

/-- Reading an argument needs all of its term. -/
theorem needs_argument (h : Host σ) {t : Term f} {v : Value} (hread : t.reading 0 = .done v) :
    Needs f h (readArgument h) t.bytes :=
  (needs_receive h (t.needs_value hread)).bind_pure

/-- Every argument is needed, for each of the others is read to its end. -/
theorem needs_arguments (h : Host σ) (ts : List (Term f)) {vs : List Value}
    (hread : Term.readings ts = .done vs) :
    Needs f h (readArguments h ts.length) (Term.allBytes ts) := by
  induction ts generalizing vs with
  | nil =>
    intro part missing hpart hmissing
    exact absurd (List.append_eq_nil_iff.mp hpart).2 hmissing
  | cons t ts ih =>
    obtain ⟨v, hv, hread⟩ := Reading.andThen_eq_done.mp hread
    obtain ⟨rest, hrest, -⟩ := Reading.andThen_eq_done.mp hread
    apply (needs_argument h hv).bind (reads_argument h t)
    intro s
    obtain ⟨a, u, hdone, hsu⟩ := Term.completes_accepted h hv s
    exact ⟨a, u, hdone, hsu, (ih hrest).bind_pure⟩

/-- The whole body of a frame without a fault is needed before its operation is known. -/
theorem needs_operation (h : Host σ) {F : Frame f} (hF : F.Sound) :
    Needs f h (readOperation h F.command) F.body := by
  obtain ⟨op, hread⟩ := hF
  cases F with
  | call path args hlength =>
    obtain ⟨p, hp, hread⟩ := Reading.andThen_eq_done.mp hread
    obtain ⟨vs, hvs, -⟩ := Reading.andThen_eq_done.mp hread
    have hcount : (UInt32.ofNat args.length).toNat = args.length := by
      rw [UInt32.toNat_ofNat']
      exact Nat.mod_eq_of_lt hlength
    apply (needs_path h hp).bind (reads_path path)
    intro s
    refine ⟨p, s, by rw [hp]; rfl, .nothing s, ?_⟩
    apply (needs_receive h (Reader.needs_word _)).bind (reads_receive (Reader.follows_word _))
    intro s
    refine ⟨_, s, rfl, .nothing s, ?_⟩
    rw [hcount]
    exact (needs_arguments h args hvs).bind_pure
  | get path =>
    obtain ⟨p, hp, -⟩ := Reading.andThen_eq_done.mp hread
    exact (needs_path h hp).bind_pure
  | set path key value =>
    obtain ⟨p, hp, hread⟩ := Reading.andThen_eq_done.mp hread
    obtain ⟨k, hk, hread⟩ := Reading.andThen_eq_done.mp hread
    obtain ⟨v, hv, -⟩ := Reading.andThen_eq_done.mp hread
    apply (needs_path h hp).bind (reads_path path)
    intro s
    refine ⟨p, s, by rw [hp]; rfl, .nothing s, ?_⟩
    apply (needs_argument h hk).bind (reads_argument h key)
    intro s
    obtain ⟨a, t, hdone, hst⟩ := Term.completes_accepted h hk s
    exact ⟨a, t, hdone, hst, (needs_argument h hv).bind_pure⟩

/-- The header of a new handshake is needed before anything is settled. -/
theorem needs_negotiation (h : Host σ) {header : List UInt8}
    (hlength : header.length = headerLength) :
    Needs f h (onConn Session.negotiateServer) header := by
  have htake : Reader.Needs (Reader.take headerLength) header := by
    rw [← hlength]
    exact Reader.needs_take header
  have hheader : Needs f h (onConn (Session.receive fun _ => Reader.take headerLength)) header :=
    needs_receive h htake
  rw [Session.negotiateServer, onConn_bind]
  exact hheader.bind_pure

section

variable {s : Served σ} {after later : List Arrival} {e : Error}

/-- A server that finds a beginning of a request behind its command byte fails as the line does. It
has given its consent, if the request asks for one, and the host has adopted blobs at most. -/
theorem serveOne_cut (h : Host σ) (r : Request f) (hs : s.conn.Serves own f)
    (hpart : part ++ missing = r.bytes) (hbegun : part ≠ []) (hmissing : missing ≠ [])
    (hin : s.conn.line.inbound.Brings part after) (hmeets : Inbound.Meets after e later) :
    ∃ t, serveOne h s = (.error e, t) ∧ h.Adopts s.host t.host ∧ t.conn.Serves own f ∧
      t.conn.line.inbound = ⟨[], later⟩ ∧
      t.conn.line.written = s.conn.line.written ++ r.consent := by
  obtain ⟨b, begun, rfl⟩ := List.exists_cons_of_ne_nil hbegun
  rw [Request.bytes, List.cons_append, List.cons.injEq] at hpart
  obtain ⟨rfl, hbody⟩ := hpart
  obtain ⟨middle, hcommand, hmiddle⟩ :=
    reads_command (f := f) r.command.toByte s begun after hs.openIn hin
  have hserves := hs.withInput middle
  cases r with
  | frame F sound =>
    obtain ⟨c, hconsent, hsame, hsent⟩ :=
      giveConsent_emits (s.conn.withInput middle) hserves.openIn hserves.free
    have hc : c.Serves own f := hserves.of_incoming hsame
    have hunread : c.line.inbound.Brings begun after := by
      rw [Connection.inbound_of_incoming hsame]
      exact hmiddle
    obtain ⟨host, hrun, hadopts⟩ := needs_operation h sound begun missing hbody hmissing
      ⟨c, s.host⟩ after later e hc.openIn hunread hmeets
    refine ⟨⟨c.withInput ⟨[], later⟩, host⟩, ?_, hadopts, hc.withInput _, rfl, hsent⟩
    have hready : (onConn giveConsent : Serving σ Unit) ⟨s.conn.withInput middle, s.host⟩ =
        (.ok (), ⟨c, s.host⟩) := onConn_of_run hconsent
    rw [serveOne_of_command hcommand]
    exact (bind_of_ok hready).trans (bind_of_error hrun)
  | greet header peer valid =>
    obtain ⟨host, hrun, hadopts⟩ := needs_negotiation h (Header.length_of_decode valid)
      begun missing hbody hmissing
      ⟨s.conn.withInput middle, s.host⟩ after later e hserves.openIn hmiddle hmeets
    refine ⟨⟨s.conn.withInput ⟨[], later⟩, host⟩, ?_, hadopts, hs.withInput _, rfl,
      (List.append_nil _).symm⟩
    rw [serveOne_of_connect hcommand]
    exact bind_of_error hrun

/-- A failure of the line between two requests loses nothing. -/
theorem serveOne_of_pause (h : Host σ) {e : IoError} (hopen : s.conn.OpenIn f)
    (hin : s.conn.line.inbound.Brings [] (.fault e :: later)) (he : e.kind ≠ .interrupted) :
    serveOne h s = (.error (.ofIo e), ⟨s.conn.withInput ⟨[], later⟩, s.host⟩) := by
  have hreceive := Session.receive_run hopen.isOpen fun _ => Reader.byte?
  rw [Reader.byte?, Inbound.next_of_fault hin he] at hreceive
  have hcommand : Session.readCommand s.conn =
      (.error (.ofIo e), s.conn.withInput ⟨[], later⟩) := bind_of_error hreceive
  have hserving : (onConn Session.readCommand : Serving σ UInt8) s =
      (.error (.ofIo e), ⟨s.conn.withInput ⟨[], later⟩, s.host⟩) := onConn_of_run hcommand
  exact bind_of_error hserving

end

end Serving

end RemoteCall
