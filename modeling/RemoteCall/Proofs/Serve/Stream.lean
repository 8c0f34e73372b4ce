import RemoteCall.Proofs.Handshake
import RemoteCall.Proofs.Serve.Round

/-!
# Streams of requests

What a peer sends to a server after its handshake: requests one after another, each in the format
that is in force at its place, for a new handshake settles a new one. The server takes each request
off the line as a whole, does to the host what it asks for and sends the reply. So what a stream
does and what is sent for it are read off the stream, request by request.
-/

namespace RemoteCall

variable {σ α β : Type}

namespace Host

variable {h : Host σ} {s t u : σ}

/-- The host goes from one state to the other by adopting blobs and by nothing else. -/
inductive Adopts (h : Host σ) : σ → σ → Prop where
  | nothing (s : σ) : Adopts h s s
  | blob {s t : σ} (bytes : List UInt8) (rest : Adopts h (h.adopt s bytes).2 t) : Adopts h s t

/-- Adopting blobs goes on from where it has led. -/
theorem Adopts.trans (hst : h.Adopts s t) (htu : h.Adopts t u) : h.Adopts s u := by
  induction hst with
  | nothing s => exact htu
  | blob bytes rest ih => exact .blob bytes (ih htu)

/-- Where adopting leaves no trace, nothing but adopting leaves none either. -/
theorem Adopts.eq (hkeep : ∀ s bytes, (h.adopt s bytes).2 = s) (hst : h.Adopts s t) : t = s := by
  induction hst with
  | nothing s => rfl
  | blob bytes rest ih => rw [ih, hkeep]

/-- Taking in a value adopts at most a blob. -/
theorem adopts_accept (h : Host σ) (v : Value) (s : σ) : h.Adopts s (h.accept v s).2 := by
  cases v with
  | blob bytes => exact .blob bytes (.nothing _)
  | _ => exact .nothing s

end Host

namespace Asking

variable {h : Host σ}

/-- What is asked comes to an end without a fault, and the host has adopted blobs on the way. -/
def Completes (h : Host σ) (r : Asking σ α) : Prop :=
  ∀ s, ∃ a t, r s = (.done a, t) ∧ h.Adopts s t

/-- What was read without the host comes to an end. -/
theorem completes_done (a : α) : Completes h (ofReading (.done a)) :=
  fun s => ⟨a, s, rfl, .nothing s⟩

/-- What comes to an end can be gone on from. -/
theorem Completes.andThen {r : Asking σ α} {k : α → Asking σ β} (hr : r.Completes h)
    (more : List UInt8) (hk : ∀ a, (k a).Completes h) : (r.andThen more k).Completes h := by
  intro s
  obtain ⟨a, t, hfirst, hst⟩ := hr s
  obtain ⟨b, u, hsecond, htu⟩ := hk a t
  refine ⟨b, u, ?_, hst.trans htu⟩
  simp only [Asking.andThen, hfirst, hsecond]

end Asking

namespace Term

variable {f : Format}

/-- A term that is read comes to an end, and its blob is adopted. -/
theorem completes_accepted (h : Host σ) {t : Term f} {v : Value} (hread : t.reading 0 = .done v) :
    (t.accepted h).Completes h := by
  unfold accepted
  rw [hread]
  exact (Asking.completes_done v).andThen [] fun v s => ⟨_, _, rfl, h.adopts_accept v s⟩

/-- Terms that are read come to an end, and their blobs are adopted. -/
theorem completes_allAccepted (h : Host σ) (ts : List (Term f)) {vs : List Value}
    (hread : readings ts = .done vs) : (allAccepted h ts).Completes h := by
  induction ts generalizing vs with
  | nil => exact Asking.completes_done []
  | cons t ts ih =>
    obtain ⟨v, hv, hread⟩ := Reading.andThen_eq_done.mp hread
    obtain ⟨rest, hrest, -⟩ := Reading.andThen_eq_done.mp hread
    refine (completes_accepted h hv).andThen _ fun v => ?_
    exact (ih hrest).andThen [] fun vs => Asking.completes_done _

end Term

/-- The frame is read to its end without a fault. -/
def Frame.Sound {f : Format} (F : Frame f) : Prop := ∃ op, F.reading = .done op

/-- Of a frame without a fault nothing is left. -/
theorem Frame.Sound.left_eq_nil {f : Format} {F : Frame f} (hF : F.Sound) :
    F.reading.left = [] := by
  obtain ⟨op, hread⟩ := hF
  rw [hread]
  rfl

/-- From a frame without a fault a host is asked for an operation. -/
theorem Frame.Sound.completes {f : Format} {F : Frame f} (hF : F.Sound) (h : Host σ) :
    (F.asked h).Completes h := by
  obtain ⟨op, hread⟩ := hF
  cases F with
  | call path args hlength =>
    obtain ⟨p, hp, hread⟩ := Reading.andThen_eq_done.mp hread
    obtain ⟨vs, hvs, -⟩ := Reading.andThen_eq_done.mp hread
    simp only [asked, hp]
    refine (Asking.completes_done p).andThen _ fun p => ?_
    exact (Term.completes_allAccepted h args hvs).andThen [] fun vs => Asking.completes_done _
  | get path =>
    obtain ⟨p, hp, -⟩ := Reading.andThen_eq_done.mp hread
    simp only [asked, hp]
    exact Asking.completes_done (Operation.get p)
  | set path key value =>
    obtain ⟨p, hp, hread⟩ := Reading.andThen_eq_done.mp hread
    obtain ⟨k, hk, hread⟩ := Reading.andThen_eq_done.mp hread
    obtain ⟨v, hv, -⟩ := Reading.andThen_eq_done.mp hread
    simp only [asked, hp]
    refine (Asking.completes_done p).andThen _ fun p => ?_
    refine (Term.completes_accepted h hk).andThen _ fun k => ?_
    exact (Term.completes_accepted h hv).andThen [] fun v => Asking.completes_done _

/-- A request that a server understands: a frame without a fault, or a new handshake. -/
inductive Request (f : Format) where
  | frame (F : Frame f) (sound : F.Sound)
  | greet (header : List UInt8) (peer : Header) (valid : Header.decode header = .ok peer)

namespace Request

variable {f : Format}

/-- The format in force behind the request, on a server with this format of its own. -/
def next (own : Format) : Request f → Format
  | .frame .. => f
  | .greet _ peer _ => own.reconcile peer

def command : Request f → Command
  | .frame F _ => F.command
  | .greet .. => .connect

/-- The bytes behind the command byte. -/
def body : Request f → List UInt8
  | .frame F _ => F.body
  | .greet header _ _ => header

def bytes (r : Request f) : List UInt8 := r.command.toByte :: r.body

/-- What is sent once the command is read, before anything else. -/
def consent : Request f → List UInt8
  | .frame .. => [Status.ready.toByte]
  | .greet .. => []

/-- The reply to the request on a host in this state. -/
def reply (own : Format) (h : Host σ) : Request f → σ → Emission
  | .frame F _, s => F.reply h s
  | .greet _ peer _, _ => .ofBytes (Header.ofFormat (own.reconcile peer)).encode

/-- What the request makes of the host. -/
def effect (h : Host σ) : Request f → σ → σ
  | .frame F _, s => F.effect h s
  | .greet .., s => s

/-- The operation that a host in this state is asked for, if the request is a frame. -/
def operation? (h : Host σ) : Request f → σ → Option Operation
  | .frame F _, s =>
    match (F.asked h s).1 with
    | .done op => some op
    | .stop _ _ => none
  | .greet .., _ => none

/-- The reply to a request is cut short, if at all, by a violation. -/
theorem mild_reply (own : Format) (h : Host σ) (r : Request f) (s : σ) :
    (r.reply own h s).Mild := by
  cases r with
  | frame F sound => exact F.mild_reply h s
  | greet header peer valid => exact Emission.mild_ofBytes _

end Request

/-- Requests one after another, each in the format in force at its place, to a server with this
format of its own. -/
inductive Requests (own : Format) : Format → Type where
  | nil {f : Format} : Requests own f
  | cons {f : Format} (first : Request f) (rest : Requests own (first.next own)) : Requests own f

namespace Requests

variable {own : Format}

def length : {f : Format} → Requests own f → Nat
  | _, .nil => 0
  | _, .cons _ rest => rest.length + 1

def bytes : {f : Format} → Requests own f → List UInt8
  | _, .nil => []
  | _, .cons first rest => first.bytes ++ rest.bytes

/-- The bytes of each of them. -/
def units : {f : Format} → Requests own f → List (List UInt8)
  | _, .nil => []
  | _, .cons first rest => first.bytes :: rest.units

/-- The format in force behind all of them. -/
def format : {f : Format} → Requests own f → Format
  | f, .nil => f
  | _, .cons _ rest => rest.format

/-- The replies in order, to a host in this state at the beginning. -/
def replies (h : Host σ) : {f : Format} → Requests own f → σ → List Emission
  | _, .nil, _ => []
  | _, .cons first rest, s => first.reply own h s :: rest.replies h (first.effect h s)

/-- All that is sent for the requests. -/
def answered (h : Host σ) {f : Format} (rs : Requests own f) (s : σ) : List UInt8 :=
  (rs.replies h s).flatMap Emission.bytes

/-- What the requests make of the host. -/
def effect (h : Host σ) : {f : Format} → Requests own f → σ → σ
  | _, .nil, s => s
  | _, .cons first rest, s => rest.effect h (first.effect h s)

/-- The operations that the host is asked for, in order. -/
def operations (h : Host σ) : {f : Format} → Requests own f → σ → List Operation
  | _, .nil, _ => []
  | _, .cons first rest, s =>
    (first.operation? h s).toList ++ rest.operations h (first.effect h s)

@[simp] theorem bytes_nil {f : Format} : (nil : Requests own f).bytes = [] := by rw [bytes]

@[simp] theorem bytes_cons {f : Format} (r : Request f) (rest : Requests own (r.next own)) :
    (cons r rest).bytes = r.bytes ++ rest.bytes := by rw [bytes]

/-- The bytes of requests are those of each of them in a row. -/
theorem flatten_units {f : Format} (rs : Requests own f) : rs.units.flatten = rs.bytes := by
  induction rs with
  | nil => rw [units, bytes, List.flatten_nil]
  | cons r rest ih => rw [units, bytes, List.flatten_cons, ih]

/-- Every request has at least one byte. -/
theorem length_le_length_bytes {f : Format} (rs : Requests own f) :
    rs.length ≤ rs.bytes.length := by
  induction rs with
  | nil => simp [length]
  | cons r rest ih => simp [length, Request.bytes]; omega

end Requests

namespace Serving

open Session

variable {f own : Format} {s : Served σ} {rest : List UInt8} {after : List Arrival}

/-- Behind the command to connect a server goes through a new handshake. -/
theorem serveOne_of_connect {h : Host σ} {t : Served σ}
    (hread : onConn readCommand s = (.ok Command.connect.toByte, t)) :
    serveOne h s = (onConn negotiateServer >>= fun _ => onConn flush) t := by
  rw [serveOne, bind_of_ok hread]
  simp only [Command.ofByte?_toByte]

/-- On a line that takes everything a request is taken off the line, does to the host what it asks
for and is answered with its reply, as far as that can be sent. -/
theorem serveOne_request (h : Host σ) (r : Request f) (hs : s.conn.Serves own f)
    (hin : s.conn.line.inbound.Brings (r.bytes ++ rest) after) :
    ∃ later, serveOne h s = ((r.reply own h s.host).outcome, ⟨later, r.effect h s.host⟩) ∧
      later.Serves own (r.next own) ∧ later.line.inbound.Brings rest after ∧
      later.line.written = s.conn.line.written ++ (r.reply own h s.host).bytes := by
  cases r with
  | frame F sound =>
    obtain ⟨op, t, hasked, -⟩ := sound.completes h s.host
    obtain ⟨later, hserve, hlater, hnext, hwritten⟩ := serveOne_replies h hs hin
    rw [hasked] at hnext
    exact ⟨later, hserve, hlater, hnext, hwritten⟩
  | greet header peer valid =>
    obtain ⟨middle, hcommand, hmiddle⟩ :=
      reads_command (f := f) Command.connect.toByte s (header ++ rest) after hs.openIn hin
    have hserves := hs.withInput middle
    obtain ⟨input, hinput, hnegotiate⟩ := negotiateServer_run hserves.openIn.isOpen valid hmiddle
    rw [hserves.native_eq] at hnegotiate
    obtain ⟨settled, hsettle, hsettled, hinbound, hwritten⟩ :=
      settle_serves (own.reconcile peer) (hserves.withInput input)
    obtain ⟨later, hflush, hsame, hsent⟩ := emits_flush settled hsettled.openIn hsettled.free
    refine ⟨later, ?_, hsettled.of_incoming hsame, ?_, ?_⟩
    · rw [serveOne_of_connect hcommand]
      have hrun : (onConn negotiateServer : Serving σ Unit) ⟨s.conn.withInput middle, s.host⟩ =
          (.ok (), ⟨settled, s.host⟩) := by
        simp only [onConn, hnegotiate, hsettle]
      refine (bind_of_ok hrun).trans ?_
      exact onConn_of_run hflush
    · rw [Connection.inbound_of_incoming hsame, hinbound]
      exact hinput
    · rw [hsent, hwritten]
      exact List.append_nil _

/-- On a line that takes everything the loop goes on behind every request. -/
theorem advance_request (h : Host σ) (r : Request f) (hs : s.conn.Serves own f)
    (hin : s.conn.line.inbound.Brings (r.bytes ++ rest) after) :
    ∃ t, advance h s = some t ∧ t.host = r.effect h s.host ∧ t.conn.Serves own (r.next own) ∧
      t.conn.line.inbound.Brings rest after ∧
      t.conn.line.written = s.conn.line.written ++ (r.reply own h s.host).bytes := by
  obtain ⟨later, hserve, hlater⟩ := serveOne_request h r hs hin
  refine ⟨⟨later, r.effect h s.host⟩, ?_, rfl, hlater⟩
  cases hfailure : (r.reply own h s.host).failure with
  | none =>
    rw [Emission.outcome_eq_ok.mpr hfailure] at hserve
    rw [advance_of_ok (congrArg Prod.fst hserve), hserve]
  | some e =>
    rw [Emission.outcome_eq_error.mpr hfailure] at hserve
    rw [advance_of_error (congrArg Prod.fst hserve), hserve,
      if_pos ((r.mild_reply own h s.host).nonFatal hfailure)]

end Serving

end RemoteCall
