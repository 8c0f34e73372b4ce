import RemoteCall.Proofs.Conversation
import RemoteCall.Proofs.Wire.Frame
import RemoteCall.Serve

/-!
# Serving a frame

Serving one request is giving consent, reading an operation, carrying it out with a reply, and
pushing the reply. Reading a frame touches the host only to adopt blobs, in the order in which they
stand in the frame; replying touches only what is sent. So what becomes of the input is settled by
the frame alone, and what becomes of the host by the frame and the host.
-/

namespace RemoteCall

variable {σ α β : Type}

/-- What is read of bytes by a server that passes blobs to its host. -/
abbrev Asking (σ α : Type) := σ → Reading α × σ

namespace Asking

/-- A reading that does not need the host. -/
def ofReading (r : Reading α) : Asking σ α := fun s => (r, s)

/-- What is read of further bytes after this. -/
def andThen (r : Asking σ α) (more : List UInt8) (k : α → Asking σ β) : Asking σ β := fun s =>
  match r s with
  | (.done a, s) => k a s
  | (.stop e left, s) => (.stop e (left ++ more), s)

@[simp] theorem ofReading_andThen (r : Reading α) (more : List UInt8) (k : α → Reading β) :
    (ofReading r : Asking σ α).andThen more (fun a => ofReading (k a)) =
      ofReading (r.andThen more k) := by
  cases r <;> rfl

end Asking

/-- What the host makes of an incoming value. -/
def Host.accept (h : Host σ) (v : Value) (s : σ) : Value × σ :=
  match v with
  | .blob bytes => h.adopt s bytes
  | v => (v, s)

namespace Serving

variable {f : Format} {x : Serving σ α} {k : α → Serving σ β} {bytes more : List UInt8}

/-- The computation reads this of these bytes, whatever follows them, and touches nothing but the
input and the host. -/
def Reads (f : Format) (x : Serving σ α) (bytes : List UInt8) (r : Asking σ α) : Prop :=
  ∀ (s : Served σ) (rest : List UInt8) (after : List Arrival), s.conn.OpenIn f →
    s.conn.line.inbound.Brings (bytes ++ rest) after →
      ∃ later, x s = ((r s.host).1.result, ⟨s.conn.withInput later, (r s.host).2⟩) ∧
        later.Brings ((r s.host).1.left ++ rest) after

/-- A session inside the server comes to what it comes to on its connection, and the host stays. -/
theorem onConn_of_run {x : Session α} {s : Served σ} {result : Except Error α} {later : Connection}
    (hrun : x s.conn = (result, later)) :
    (onConn x : Serving σ α) s = (result, ⟨later, s.host⟩) := by
  simp only [onConn, hrun]

/-- A session on the connection is its steps on the connection. -/
theorem onConn_bind (x : Session α) (k : α → Session β) :
    (onConn (x >>= k) : Serving σ β) = onConn x >>= fun a => onConn (k a) := by
  funext s
  cases hrun : x s.conn with
  | mk result later =>
    have hx : (onConn x : Serving σ α) s = (result, { s with conn := later }) := onConn_of_run hrun
    cases result with
    | ok a =>
      rw [bind_of_ok hx]
      simp only [onConn, bind_of_ok hrun]
    | error e =>
      rw [bind_of_error hx]
      simp only [onConn, bind_of_error hrun]

/-- Giving a value reads no bytes. -/
theorem reads_pure (a : α) : Reads f (pure a : Serving σ α) [] (.ofReading (.done a)) :=
  fun s _ _ _ hin => ⟨s.conn.line.inbound, rfl, hin⟩

/-- Failing leaves all bytes unread. -/
theorem reads_throw (e : Error) (bytes : List UInt8) :
    Reads f (throw e : Serving σ α) bytes (.ofReading (.stop e bytes)) :=
  fun s _ _ _ hin => ⟨s.conn.line.inbound, rfl, hin⟩

/-- The host acts without a byte being read. -/
theorem reads_onHost (act : σ → α × σ) :
    Reads f (onHost act) [] fun s => (.done (act s).1, (act s).2) :=
  fun s _ _ _ hin => ⟨s.conn.line.inbound, rfl, hin⟩

/-- Receiving reads what its reader reads. -/
theorem reads_receive {reader : Format → Reader α} {r : Reading α}
    (h : Reader.Follows (reader f) bytes r) :
    Reads f (onConn (Session.receive reader) : Serving σ α) bytes (.ofReading r) := by
  intro s rest after hopen hin
  have hreader : (reader s.conn.format).Follows bytes r := by
    rw [hopen.format_eq]
    exact h
  obtain ⟨later, hrun, hlater⟩ := Session.receive_follows reader hopen.isOpen hreader hin
  refine ⟨later, ?_, hlater⟩
  exact onConn_of_run hrun

/-- What is read one after the other is read of bytes in a row. -/
theorem Reads.bind {r : Asking σ α} {g : α → Asking σ β} (hx : Reads f x bytes r)
    (hk : ∀ a, Reads f (k a) more (g a)) :
    Reads f (x >>= k) (bytes ++ more) (r.andThen more g) := by
  intro s rest after hopen hin
  rw [List.append_assoc] at hin
  obtain ⟨middle, hrun, hmiddle⟩ := hx s (more ++ rest) after hopen hin
  unfold Asking.andThen
  cases hr : r s.host with
  | mk reading host =>
    rw [hr] at hrun hmiddle
    cases reading with
    | done a =>
      obtain ⟨later, hlater, hbrings⟩ :=
        hk a ⟨s.conn.withInput middle, host⟩ rest after (hopen.withInput middle) hmiddle
      exact ⟨later, (bind_of_ok hrun).trans hlater, hbrings⟩
    | stop e left =>
      refine ⟨middle, bind_of_error hrun, ?_⟩
      rw [Reading.left_stop, List.append_assoc]
      exact hmiddle

/-- What is made of the result alone takes no further bytes. -/
theorem Reads.bind_pure {r : Asking σ α} {g : α → Asking σ β} (hx : Reads f x bytes r)
    (hk : ∀ a, Reads f (k a) [] (g a)) : Reads f (x >>= k) bytes (r.andThen [] g) := by
  have h := hx.bind hk
  rwa [List.append_nil] at h

/-- After a first part that is done the rest is read. -/
theorem Reads.bind_done {a : α} {r : Asking σ β} (hx : Reads f x bytes (.ofReading (.done a)))
    (hk : Reads f (k a) more r) : Reads f (x >>= k) (bytes ++ more) r := by
  intro s rest after hopen hin
  rw [List.append_assoc] at hin
  obtain ⟨middle, hrun, hmiddle⟩ := hx s (more ++ rest) after hopen hin
  obtain ⟨later, hlater, hbrings⟩ :=
    hk ⟨s.conn.withInput middle, s.host⟩ rest after (hopen.withInput middle) hmiddle
  exact ⟨later, (bind_of_ok hrun).trans hlater, hbrings⟩

end Serving

namespace Term

variable {f : Format}

/-- A value of a request, where a blob goes through the host. -/
def accepted (h : Host σ) (t : Term f) : Asking σ Value :=
  (Asking.ofReading (t.reading 0)).andThen [] fun v s => (.done (h.accept v s).1, (h.accept v s).2)

/-- Values of a request one after another. -/
def allAccepted (h : Host σ) : List (Term f) → Asking σ (List Value)
  | [] => .ofReading (.done [])
  | t :: ts =>
    (t.accepted h).andThen (allBytes ts) fun v =>
      (allAccepted h ts).andThen [] fun vs => .ofReading (.done (v :: vs))

end Term

/-- What a server reads of a frame behind the command byte. -/
def Frame.asked {f : Format} (h : Host σ) : Frame f → Asking σ Operation
  | .call path args _ =>
    (Asking.ofReading path.pathReading).andThen
      (f.wordBytes (UInt32.ofNat args.length) ++ Term.allBytes args) fun p =>
        (Term.allAccepted h args).andThen [] fun vs => .ofReading (.done (.call p vs))
  | .get path => .ofReading (path.pathReading.andThen [] fun p => .done (.get p))
  | .set path key value =>
    (Asking.ofReading path.pathReading).andThen (key.bytes ++ value.bytes) fun p =>
      (key.accepted h).andThen value.bytes fun k =>
        (value.accepted h).andThen [] fun v => .ofReading (.done (.set p k v))

/-- What an operation makes of the host. -/
def Operation.effect (h : Host σ) (op : Operation) (s : σ) : σ :=
  match op with
  | .call path args => (h.invoke s path args).2
  | .get _ => s
  | .set path key value => (h.assign s path key value).2

/-- What a frame makes of the host: blobs are adopted as far as it is read, and an operation that is
read is carried out. -/
def Frame.effect {f : Format} (h : Host σ) (F : Frame f) (s : σ) : σ :=
  match F.asked h s with
  | (.done op, s) => op.effect h s
  | (.stop _ _, s) => s

namespace Serving

variable {f : Format}

/-- The body of a request with this command. -/
def readOperation (h : Host σ) : Command → Serving σ Operation
  | .call => do
    let path ← readPath
    let count ← onConn Session.readWord
    let args ← readArguments h count.toNat
    return .call path args
  | .get => do return .get (← readPath)
  | .set => do
    let path ← readPath
    let key ← readArgument h
    let value ← readArgument h
    return .set path key value
  | .connect => throw (.command Command.connect.toByte)

/-- Carries out an operation and replies. -/
def respond (h : Host σ) : Operation → Serving σ Unit
  | .call path args => do
    match ← onHost fun s => h.invoke s path args with
    | .ok results => onConn do
      if UInt32.size ≤ results.length then throw (.protocol .tooManyResults)
      Session.writeByte 0
      Session.writeWord (UInt32.ofNat results.length)
      writeValues results
    | .error e => writeFailure e
  | .get path => do
    let found ← onHost fun s => (h.resolve s path, s)
    match found with
    | .ok v => onConn (Session.writeValue v)
    | .error e =>
      if e.isNotFound then onConn (Session.writeValue .nil)
      else throw (.protocol (.unreadable path.text e.message))
  | .set path key value => do
    match ← onHost fun s => h.assign s path key value with
    | .ok () => onConn (Session.writeByte 0)
    | .error e => writeFailure e

/-- To serve a call is to read it and to respond. -/
theorem serveCall_eq (h : Host σ) : serveCall h = readOperation h .call >>= respond h := by
  simp only [serveCall, readOperation, bind_assoc, pure_bind]
  rfl

/-- To serve a read is to read what it asks for and to respond. -/
theorem serveGet_eq (h : Host σ) : serveGet h = readOperation h .get >>= respond h := by
  simp only [serveGet, readOperation, bind_assoc, pure_bind]
  rfl

/-- To serve an assignment is to read it and to respond. -/
theorem serveSet_eq (h : Host σ) : serveSet h = readOperation h .set >>= respond h := by
  simp only [serveSet, readOperation, bind_assoc, pure_bind]
  rfl

/-- A path is read of its payload. -/
theorem reads_path (p : Payload) :
    Reads f (readPath : Serving σ Path) (p.wire f) (.ofReading p.pathReading) := by
  rw [readPath, onConn_bind, Payload.pathReading, ← Asking.ofReading_andThen]
  refine (reads_receive p.follows_string).bind_pure fun bs => ?_
  cases Text.decode? bs with
  | some dotted => exact reads_pure _
  | none => exact reads_throw _ _

/-- An argument is read from a term, and a blob is adopted. -/
theorem reads_argument (h : Host σ) (t : Term f) :
    Reads f (readArgument h) t.bytes (t.accepted h) := by
  refine (reads_receive t.follows_value).bind_pure fun v => ?_
  cases v with
  | blob bytes => exact reads_onHost fun s => h.adopt s bytes
  | _ => exact reads_pure _

/-- Arguments are read of their terms, one after the other, and their blobs go through the host. -/
theorem reads_arguments (h : Host σ) (ts : List (Term f)) :
    Reads f (readArguments h ts.length) (Term.allBytes ts) (Term.allAccepted h ts) := by
  induction ts with
  | nil => exact reads_pure []
  | cons t ts ih =>
    exact (reads_argument h t).bind fun v => ih.bind_pure fun vs => reads_pure (v :: vs)

/-- The body of a frame is read as the frame says. -/
theorem reads_operation (h : Host σ) (F : Frame f) :
    Reads f (readOperation h F.command) F.body (F.asked h) := by
  cases F with
  | call path args hlength =>
    refine (reads_path path).bind fun p => ?_
    refine (reads_receive (Reader.follows_word _)).bind_done ?_
    have hcount : (UInt32.ofNat args.length).toNat = args.length := by
      rw [UInt32.toNat_ofNat']
      exact Nat.mod_eq_of_lt hlength
    rw [hcount]
    exact (reads_arguments h args).bind_pure fun vs => reads_pure (Operation.call p vs)
  | get path =>
    have h := (reads_path path : Reads f (readPath : Serving σ Path) _ _).bind_pure fun p =>
      reads_pure (Operation.get p)
    rwa [Asking.ofReading_andThen] at h
  | set path key value =>
    refine (reads_path path).bind fun p => ?_
    refine (reads_argument h key).bind fun k => ?_
    exact (reads_argument h value).bind_pure fun v => reads_pure (Operation.set p k v)

/-- A command byte is read as itself. -/
theorem reads_command (b : UInt8) :
    Reads f (onConn Session.readCommand : Serving σ UInt8) [b] (.ofReading (.done b)) := by
  have hbyte : Reads f (onConn (Session.receive fun _ => Reader.byte?) : Serving σ (Option UInt8))
      [b] (.ofReading (.done (some b))) := reads_receive (Reader.follows_next b)
  rw [Session.readCommand, onConn_bind]
  refine hbyte.bind_done (?_ : Reads f _ [] _)
  exact reads_pure b

/-- The computation sends something and does this to the host. -/
def Replies (x : Serving σ α) (effect : σ → σ) : Prop :=
  ∀ s, (x s).2.conn.incoming = s.conn.incoming ∧ (x s).2.host = effect s.host

/-- A session that leaves the input alone is a reply, and the host stays. -/
theorem replies_onConn {y : Session α} (hy : Session.Keeps Connection.incoming y) :
    Replies (onConn y : Serving σ α) id := fun s => ⟨hy s.conn, rfl⟩

/-- Failing is a reply of nothing. -/
theorem replies_throw (e : Error) : Replies (throw e : Serving σ α) id := fun _ => ⟨rfl, rfl⟩

/-- A computation replies after what it has asked of the host. -/
theorem replies_onHost_bind {act : σ → α × σ} {y : α → Serving σ β}
    (hy : ∀ a, Replies (y a) id) : Replies (onHost act >>= y) fun s => (act s).2 := by
  intro s
  rw [bind_of_ok (rfl : onHost act s = (.ok (act s.host).1, ⟨s.conn, (act s.host).2⟩))]
  exact hy _ _

/-- A reply goes on as long as the host is asked for nothing more. -/
theorem Replies.bind {effect : σ → σ} {y : α → Serving σ β} (hx : Replies x effect)
    (hy : ∀ a, Replies (y a) id) : Replies (x >>= y) effect := by
  intro s
  obtain ⟨hconn, hhost⟩ := hx s
  cases hrun : x s with
  | mk result later =>
    rw [hrun] at hconn hhost
    cases result with
    | error e =>
      rw [bind_of_error hrun]
      exact ⟨hconn, hhost⟩
    | ok a =>
      rw [bind_of_ok hrun]
      obtain ⟨hconn', hhost'⟩ := hy a later
      exact ⟨hconn'.trans hconn, hhost'.trans hhost⟩

/-- Sending values leaves the input alone. -/
theorem writeValues_keeps (vs : List Value) :
    Session.Keeps Connection.incoming (writeValues vs) := by
  induction vs with
  | nil => exact Session.keeps_pure ()
  | cons v vs ih => exact (Session.send_keeps _).bind fun _ => ih

/-- Sending a failure of the host asks it for nothing more. -/
theorem writeFailure_replies (e : HostError) : Replies (writeFailure e : Serving σ Unit) id :=
  replies_onConn ((Session.send_keeps _).bind fun _ =>
    (Session.send_keeps _).bind fun _ => Session.send_keeps _)

/-- An operation does to the host what it asks for, whatever becomes of the reply. -/
theorem respond_replies (h : Host σ) (op : Operation) : Replies (respond h op) (op.effect h) := by
  cases op with
  | call path args =>
    refine replies_onHost_bind fun outcome => ?_
    cases outcome with
    | ok results =>
      refine replies_onConn ?_
      by_cases hcount : UInt32.size ≤ results.length
      · rw [if_pos hcount]
        exact Session.keeps_throw _
      · rw [if_neg hcount]
        exact (Session.send_keeps _).bind fun _ =>
          (Session.send_keeps _).bind fun _ => writeValues_keeps results
    | error e => exact writeFailure_replies e
  | get path =>
    refine replies_onHost_bind fun outcome => ?_
    cases outcome with
    | ok v => exact replies_onConn (Session.send_keeps _)
    | error e =>
      dsimp only
      split
      · exact replies_onConn (Session.send_keeps _)
      · exact replies_throw _
  | set path key value =>
    refine replies_onHost_bind fun outcome => ?_
    cases outcome with
    | ok _ => exact replies_onConn (Session.send_keeps _)
    | error e => exact writeFailure_replies e

/-- The server's consent to a request. -/
def giveConsent : Session Unit := do
  Session.writeByte Status.ready.toByte
  Session.flush

/-- Whether the consent goes out. -/
def consent (c : Connection) : Except Error Unit := (giveConsent c).1

/-- Giving consent leaves the input alone. -/
theorem giveConsent_keeps : Session.Keeps Connection.incoming giveConsent :=
  (Session.send_keeps _).bind fun _ => Session.flush_keeps

/-- Giving consent does not look at the input. -/
theorem giveConsent_blind : Session.Blind giveConsent :=
  (Session.send_blind _).bind fun _ => Session.flush_blind

/-- On a line that takes everything the consent is sent. -/
theorem giveConsent_does : Session.Does f giveConsent [] (.ok ()) [Status.ready.toByte] := by
  have hsend : Session.Does f (Session.writeByte Status.ready.toByte) [] (.ok ())
      [Status.ready.toByte] :=
    Session.does_send (fun _ => .byte Status.ready.toByte) rfl
  exact hsend.bind_answer Session.does_flush

/-- Serving a frame once its command is read. -/
def serveBody (h : Host σ) (c : Command) : Serving σ Unit := do
  onConn giveConsent
  let op ← readOperation h c
  respond h op
  onConn Session.flush

/-- Behind the command byte of a frame its body is served. -/
theorem serveOne_of_body {h : Host σ} {c : Command} {s s' : Served σ} (hc : c ≠ .connect)
    (hread : onConn Session.readCommand s = (.ok c.toByte, s')) :
    serveOne h s = serveBody h c s' := by
  rw [serveOne, bind_of_ok hread]
  cases c with
  | call =>
    simp only [Command.ofByte?_toByte, serveCall_eq, bind_assoc]
    rfl
  | get =>
    simp only [Command.ofByte?_toByte, serveGet_eq, bind_assoc]
    rfl
  | set =>
    simp only [Command.ofByte?_toByte, serveSet_eq, bind_assoc]
    rfl
  | connect => exact absurd rfl hc

/-- Behind its command byte a request is served by its body. -/
theorem serveOne_of_command {h : Host σ} {F : Frame f} {s s' : Served σ}
    (hread : onConn Session.readCommand s = (.ok F.command.toByte, s')) :
    serveOne h s = serveBody h F.command s' := by
  refine serveOne_of_body ?_ hread
  cases F <;> exact nofun

section

variable {h : Host σ} {F : Frame f} {s : Served σ} {rest : List UInt8} {after : List Arrival}

/-- Once the command of a frame is read, its body is next on the line, and the consent goes out as
it would have before. -/
theorem serveOne_frame (h : Host σ) (hopen : s.conn.OpenIn f)
    (hin : s.conn.line.inbound.Brings (F.bytes ++ rest) after) :
    ∃ later, later.Brings (F.body ++ rest) after ∧
      serveOne h s = serveBody h F.command ⟨s.conn.withInput later, s.host⟩ := by
  obtain ⟨later, hread, hlater⟩ := reads_command (f := f) F.command.toByte s (F.body ++ rest) after
    hopen hin
  exact ⟨later, hlater, serveOne_of_command hread⟩

/-- Without consent the body stays on the line, and the host is not asked. -/
theorem serveOne_of_refusal {e : Error} (hopen : s.conn.OpenIn f)
    (hin : s.conn.line.inbound.Brings (F.bytes ++ rest) after)
    (hconsent : consent s.conn = .error e) :
    ∃ s', serveOne h s = (.error e, s') ∧ s'.conn.OpenIn f ∧ s'.host = s.host ∧
      s'.conn.line.intake = s.conn.line.intake ∧
      s'.conn.line.inbound.Brings (F.body ++ rest) after := by
  obtain ⟨later, hlater, hserve⟩ := serveOne_frame h hopen hin
  have hblind := giveConsent_blind s.conn later
  have hkeeps := giveConsent_keeps (s.conn.withInput later)
  change (giveConsent s.conn).1 = _ at hconsent
  rw [hconsent] at hblind
  rw [hblind] at hkeeps
  have hintake := Connection.intake_of_incoming hkeeps
  refine ⟨⟨(giveConsent s.conn).2.withInput later, s.host⟩, ?_,
    (hopen.withInput later).of_incoming hkeeps, rfl, hintake, hlater⟩
  rw [hserve, serveBody]
  refine bind_of_error ?_
  exact onConn_of_run hblind

/-- With consent the body is read as the frame says. -/
theorem serveOne_of_consent (hopen : s.conn.OpenIn f)
    (hin : s.conn.line.inbound.Brings (F.bytes ++ rest) after)
    (hconsent : consent s.conn = .ok ()) :
    ∃ c, c.OpenIn f ∧ c.outgoing = (giveConsent s.conn).2.outgoing ∧
      c.line.inbound.Brings ((F.asked h s.host).1.left ++ rest) after ∧
      serveOne h s = match F.asked h s.host with
        | (.done op, host) => (respond h op >>= fun _ => onConn Session.flush) ⟨c, host⟩
        | (.stop e _, host) => (.error e, ⟨c, host⟩) := by
  obtain ⟨later, hlater, hserve⟩ := serveOne_frame h hopen hin
  have hblind := giveConsent_blind s.conn later
  have hkeeps := giveConsent_keeps (s.conn.withInput later)
  change (giveConsent s.conn).1 = _ at hconsent
  rw [hconsent] at hblind
  rw [hblind] at hkeeps
  have hready : (onConn giveConsent : Serving σ Unit) ⟨s.conn.withInput later, s.host⟩ =
      (.ok (), ⟨(giveConsent s.conn).2.withInput later, s.host⟩) := onConn_of_run hblind
  have hopen' : ((giveConsent s.conn).2.withInput later).OpenIn f :=
    (hopen.withInput later).of_incoming hkeeps
  obtain ⟨last, hread, hlast⟩ := reads_operation h F
    ⟨(giveConsent s.conn).2.withInput later, s.host⟩ rest after hopen' hlater
  refine ⟨((giveConsent s.conn).2.withInput later).withInput last, hopen'.withInput last, rfl,
    hlast, ?_⟩
  rw [hserve, serveBody, bind_of_ok hready]
  cases hasked : F.asked h s.host with
  | mk reading host =>
    simp only [hasked] at hread
    cases reading with
    | done op => exact bind_of_ok hread
    | stop e left => exact bind_of_error hread

end

end Serving

end RemoteCall
