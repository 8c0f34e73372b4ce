import RemoteCall.Proofs.Client.Boundary
import RemoteCall.Proofs.Handshake
import RemoteCall.Proofs.Path

/-!
# The life of a handle

What becomes of a handle over any sequence of operations, on any line. An exchange never closes the
line itself, except for a handshake that meets no usable header; a handle closes it on the errors
that call for it. A call changes the time limit while it waits for the outcome and puts the usual
one back before it looks at what came. So a handle is open until it is closed or an error that
calls for it has come, and it stays closed then.
-/

namespace RemoteCall

namespace Connection

/-- The connection under another time limit. -/
def limitTo (limit : Option Duration) (c : Connection) : Connection :=
  { c with line := c.line.setTimeout limit }

/-- This is the time limit in force. -/
def LimitedBy (limit : Option Duration) (c : Connection) : Prop :=
  c.line.timeouts.getLast? = some limit

/-- The limit that was set last is the one in force. -/
theorem limitedBy_limitTo (c : Connection) (limit : Option Duration) :
    (c.limitTo limit).LimitedBy limit := List.getLast?_concat

end Connection

namespace Session

open Connection

variable {α β : Type} {limit : Option Duration} {x : Session α} {k : α → Session β}

/-- The session neither opens nor closes the line and changes no format, and it ends under the time
limit under which it began. -/
def Settles (limit : Option Duration) (x : Session α) : Prop :=
  ∀ c, (x c).2.standing = c.standing ∧ (c.LimitedBy limit → (x c).2.LimitedBy limit)

/-- What leaves the time limit alone settles any. -/
theorem Keeps.settles (h : Keeps steady x) : Settles limit x := by
  intro c
  have htimeouts : (x c).2.line.timeouts = c.line.timeouts := congrArg Prod.snd (h c)
  refine ⟨congrArg Prod.fst (h c), fun hlimit => ?_⟩
  rw [LimitedBy, htimeouts]
  exact hlimit

/-- Sessions that settle a limit do so one after the other. -/
theorem Settles.bind (hx : Settles limit x) (hk : ∀ a, Settles limit (k a)) :
    Settles limit (x >>= k) := by
  intro c
  obtain ⟨hstanding, hlimit⟩ := hx c
  cases hrun : x c with
  | mk result later =>
    rw [hrun] at hstanding hlimit
    cases result with
    | ok a =>
      obtain ⟨hstanding', hlimit'⟩ := hk a later
      rw [bind_of_ok hrun]
      exact ⟨hstanding'.trans hstanding, fun h => hlimit' (hlimit h)⟩
    | error e =>
      rw [bind_of_error hrun]
      exact ⟨hstanding, hlimit⟩

/-- What is done under another time limit settles, since the usual one is put back before the
outcome is looked at. -/
theorem settles_of_restored (other : Option Duration) {r : Except Error α → Session β}
    (hx : Keeps steady x) (hr : ∀ outcome, Settles limit (r outcome)) :
    Settles limit (setTimeout other >>= fun _ => observing x >>= fun outcome =>
      setTimeout limit >>= fun _ => r outcome) := by
  intro c
  cases hopen : c.isOpen with
  | false =>
    have hclosed : setTimeout other c = (.error .closed, c) :=
      bind_of_error (requireOpen_run_closed hopen)
    rw [bind_of_error hclosed]
    exact ⟨rfl, id⟩
  | true =>
    have hset : setTimeout other c = (.ok (), c.limitTo other) := setTimeout_run hopen other
    rw [bind_of_ok hset, bind_of_ok observing_run]
    have hsteady := hx (c.limitTo other)
    generalize x (c.limitTo other) = ran at hsteady ⊢
    obtain ⟨outcome, later⟩ := ran
    have hstanding : later.standing = c.standing := congrArg Prod.fst hsteady
    have hstill : later.isOpen = true := (congrArg Prod.fst hstanding).trans hopen
    have hback : setTimeout limit later = (.ok (), later.limitTo limit) :=
      setTimeout_run hstill limit
    rw [bind_of_ok hback]
    obtain ⟨hrest, hlimit⟩ := hr outcome (later.limitTo limit)
    exact ⟨hrest.trans hstanding, fun _ => hlimit (later.limitedBy_limitTo limit)⟩

end Session

namespace Exchange

open Session Connection

variable {c : Connection}

/-- Starting a request leaves the time limit alone. -/
theorem start_keeps_steady (command : Command) : Keeps steady (start command) := by
  refine (send_keeps_steady _).bind fun _ => flush_keeps_steady.bind fun _ => ?_
  refine (receive_keeps_steady _).bind fun answer => ?_
  split
  · exact keeps_pure ()
  · split
    · exact keeps_throw _
    · exact keeps_throw _

/-- Sending values leaves the time limit alone. -/
theorem sendValues_keeps_steady (vs : List Value) : Keeps steady (sendValues vs) := by
  induction vs with
  | nil => exact keeps_pure ()
  | cons v vs ih => exact (send_keeps_steady _).bind fun _ => ih

/-- A call ends under the communication timeout, whatever it waited with. -/
theorem call_settles (settings : ClientSettings) (p : Path) (args : List Value) :
    Settles settings.communicationTimeout (call settings p args) := by
  unfold call
  split
  · exact (keeps_throw _).settles
  · refine (start_keeps_steady .call).settles.bind fun _ => ?_
    refine (send_keeps_steady _).settles.bind fun _ => ?_
    refine (send_keeps_steady _).settles.bind fun _ => ?_
    refine (sendValues_keeps_steady args).settles.bind fun _ => ?_
    refine flush_keeps_steady.settles.bind fun _ => ?_
    refine settles_of_restored _ (receive_keeps_steady _) fun outcome => Keeps.settles ?_
    refine (keeps_ofExcept outcome).bind fun status => ?_
    split
    · exact (receive_keeps_steady _).bind fun count =>
        readValues_keeps receive_keeps_steady count.toNat
    · split
      · exact remoteFailure_keeps receive_keeps_steady
      · exact keeps_throw _

/-- Reading a value leaves the time limit alone. -/
theorem get_keeps_steady (p : Path) : Keeps steady (get p) :=
  (start_keeps_steady .get).bind fun _ => (send_keeps_steady _).bind fun _ =>
    flush_keeps_steady.bind fun _ => receive_keeps_steady _

/-- Assigning a value leaves the time limit alone. -/
theorem set_keeps_steady (p : Path) (key value : Value) : Keeps steady (set p key value) := by
  refine (start_keeps_steady .set).bind fun _ => (send_keeps_steady _).bind fun _ => ?_
  refine (send_keeps_steady _).bind fun _ => (send_keeps_steady _).bind fun _ => ?_
  refine flush_keeps_steady.bind fun _ => (receive_keeps_steady _).bind fun status => ?_
  split
  · exact keeps_pure ()
  · split
    · exact remoteFailure_keeps receive_keeps_steady
    · exact keeps_throw _

/-- On a closed line an exchange fails before it touches the line. -/
theorem start_bind_of_closed {α : Type} {y : Session α} (hc : c.isOpen = false)
    (command : Command) : (start command >>= fun _ => y) c = (.error .closed, c) := by
  have hsend : writeByte command.toByte c = (.error .closed, c) :=
    bind_of_error (requireOpen_run_closed hc)
  have hstart : start command c = (.error .closed, c) := bind_of_error hsend
  exact bind_of_error hstart

/-- On an open line the handshake of a fresh handle is a client's handshake under the usual time
limit, and a failure closes the line. -/
theorem connect_of_open {settings : ClientSettings} (hopen : c.isOpen = true) :
    connect settings c =
      match negotiateClient (c.limitTo settings.communicationTimeout) with
      | (.ok (), later) => (.ok (), later)
      | (.error e, later) => (.error e, later.close) := by
  have hset : setTimeout settings.communicationTimeout c =
      (.ok (), c.limitTo settings.communicationTimeout) := setTimeout_run hopen _
  rw [connect, bind_of_ok hset, bind_of_ok observing_run]
  cases negotiateClient (c.limitTo settings.communicationTimeout) with
  | mk result later => cases result <;> rfl

/-- On a closed connection nothing is greeted and nothing changes. -/
theorem connect_of_closed {settings : ClientSettings} (hclosed : c.isOpen = false) :
    connect settings c = (.error .closed, c) := by
  have hset : setTimeout settings.communicationTimeout c = (.error .closed, c) :=
    bind_of_error (requireOpen_run_closed hclosed)
  rw [connect, bind_of_error hset]

end Exchange

/-- A reply that is no usable header closes the connection. -/
theorem Header.closes_of_decode {bytes : List UInt8} {e : Error}
    (h : Header.decode bytes = .error e) : e.Closes := by
  left
  unfold decode at h
  repeat' split at h
  all_goals cases h
  all_goals rfl

namespace Session

open Connection

variable {c : Connection}

/-- On an open line a client's handshake succeeds and puts a supported format into effect, or it
fails with an error that closes the connection. In neither case does it touch the client's own
format or a time limit, and a failure leaves the format in effect. -/
theorem negotiateClient_cases (hopen : c.isOpen = true) :
    (∃ (agreed : Format) (later : Connection),
      negotiateClient c = (.ok (), { later with format := agreed }) ∧
        agreed.isSupported = true ∧ later.steady = c.steady) ∨
    ∃ e later, negotiateClient c = (.error e, later) ∧ e.Closes ∧ later.native = c.native ∧
      later.format = c.format ∧ later.line.timeouts = c.line.timeouts := by
  have hkeeps : Keeps steady (announce c.native) :=
    (send_keeps_steady _).bind fun _ => (send_keeps_steady _).bind fun _ => flush_keeps_steady
  have hsteady := hkeeps c
  have hwrites := (send_writes c.format fun _ => .byte Command.connect.toByte).bind
    ((send_writes c.format fun _ => .ofBytes (Header.ofFormat c.native).encode).bind
      (flush_writes c.format))
  rw [negotiateClient_run hopen]
  rcases hwrites c ⟨hopen, rfl⟩ with ⟨e, later, hrun, he⟩ | ⟨later, hrun, hlater, -⟩
  · right
    rw [show announce c.native c = (.error e, later) from hrun] at hsteady
    simp only [steady, standing, Prod.mk.injEq] at hsteady
    exact ⟨e, later, bind_of_error hrun, he, hsteady.1.2.1, hsteady.1.2.2, hsteady.2⟩
  · rw [show announce c.native c = (.ok (), later) from hrun] at hsteady
    rw [bind_of_ok (show announce c.native c = (.ok (), later) from hrun)]
    have hread := receive_run hlater.isOpen fun _ => Reader.take headerLength
    cases htake : Reader.take headerLength later.line.inbound with
    | mk result input =>
      rw [htake] at hread
      have hkept : (later.withInput input).steady = c.steady := hsteady
      simp only [steady, standing, Prod.mk.injEq] at hkept
      cases result with
      | error e =>
        right
        exact ⟨e, later.withInput input, bind_of_error hread,
          Inbound.gather_error_closes (congrArg Prod.fst htake), hkept.1.2.1, hkept.1.2.2, hkept.2⟩
      | ok bytes =>
        rw [bind_of_ok (show awaitHeader later = (.ok bytes, later.withInput input) from hread)]
        unfold conclude
        cases hdecode : Header.decode bytes with
        | ok peer =>
          left
          exact ⟨peer.format, later.withInput input, rfl, (Header.isValid_of_decode hdecode).2,
            hsteady⟩
        | error e =>
          right
          exact ⟨e, (later.withInput input).close, rfl, Header.closes_of_decode hdecode,
            hkept.1.2.1, hkept.1.2.2, hkept.2⟩

/-- On a closed connection the handshake is refused before a byte is sent. -/
theorem negotiateClient_of_closed (hc : c.isOpen = false) :
    negotiateClient c = (.error .closed, c) :=
  bind_of_error (requireOpen_run_closed hc)

end Session

/-- What can be done with a handle. -/
inductive Deed where
  | operate (op : Operation)
  | reconnect
  | close
  /-- Install an error handler, in place of any other. -/
  | watch (handler : Nat)
  /-- Remove the error handler. -/
  | unwatch

namespace Deed

/-- What the caller gets. -/
def Result : Deed → Type
  | .operate (.call ..) => List Value
  | .operate (.get _) => Value
  | .operate (.set ..) | .reconnect | .close | .watch _ | .unwatch => Unit

/-- The empty result. -/
instance (d : Deed) : Inhabited d.Result :=
  match d with
  | .operate (.call ..) => ⟨([] : List Value)⟩
  | .operate (.get _) => ⟨Value.nil⟩
  | .operate (.set ..) | .reconnect | .close | .watch _ | .unwatch => ⟨()⟩

/-- Does it. -/
def run : (d : Deed) → Calling d.Result
  | .operate (.call path args) => Handle.callPath path args
  | .operate (.get path) => Handle.getPath path
  | .operate (.set path key value) => Handle.setPath path key value
  | .reconnect => Handle.reconnect
  | .close => fun h => (.ok (), h.close)
  | .watch handler => fun h => (.ok (), h.watch handler)
  | .unwatch => fun h => (.ok (), h.unwatch)

/-- Runs an exchange if the names of the path are short enough. -/
def checked {α : Type} (settings : ClientSettings) (p : Path) (x : Session α) : Session α := do
  MonadExcept.ofExcept (p.check settings.maxNameLength)
  x

/-- What is done on the connection, before the handle judges the outcome. -/
def attempt (settings : ClientSettings) : (d : Deed) → Session d.Result
  | .operate (.call path args) => checked settings path (Exchange.call settings path args)
  | .operate (.get path) => checked settings path (Exchange.get path)
  | .operate (.set path key value) => checked settings path (Exchange.set path key value)
  | .reconnect => Session.negotiateClient
  | .close => Session.close
  | .watch _ => (pure () : Session Unit)
  | .unwatch => (pure () : Session Unit)

/-- The error with which it fails on a handle, whoever is told. -/
def failure? (d : Deed) (h : Handle) : Option Error :=
  match (d.attempt h.settings h.conn).1 with
  | .ok _ => none
  | .error e => some e

/-- The error handler that is installed afterwards. -/
def installs (handler : Option Nat) : Deed → Option Nat
  | .watch handler => some handler
  | .unwatch => none
  | .operate _ | .reconnect | .close => handler

/-- The report of a failure to the error handler that is installed, if there are both. -/
def report? (d : Deed) (h : Handle) (handler : Option Nat) : Option Report :=
  handler.bind fun handler => (d.failure? h).map (Report.mk handler)

end Deed

namespace Handle

/-- The handle after these deeds, in order. -/
def afterAll (h : Handle) (deeds : List Deed) : Handle := deeds.foldl (fun h d => (d.run h).2) h

/-- The errors of the deeds that fail, in order, whoever is told. -/
def failures : Handle → List Deed → List Error
  | _, [] => []
  | h, d :: rest => (d.failure? h).toList ++ failures (d.run h).2 rest

/-- What is reported of the deeds that fail, in order: each failure once, to the handler that the
deeds before it have left installed. -/
def told (handler : Option Nat) : Handle → List Deed → List Report
  | _, [] => []
  | h, d :: rest => (d.report? h handler).toList ++ told (d.installs handler) (d.run h).2 rest

end Handle

namespace Handle

variable {α : Type} [Inhabited α] {h : Handle}

/-- The errors that close a connection, as they are told apart in code. -/
theorem closes_iff {e : Error} : e.Closes ↔ (e.isFatal || decide (e = .timeout)) = true := by
  rw [Error.Closes, Bool.or_eq_true, decide_eq_true_eq]

/-- After an outcome the connection is open if it was and no error calls for closing it. -/
theorem isOpen_finish (outcome : Except Error α) (h : Handle) :
    (finish outcome h).2.isOpen = true ↔
      h.isOpen = true ∧ ∀ e, outcome = .error e → ¬ e.Closes := by
  cases outcome with
  | ok a => exact ⟨fun hopen => ⟨hopen, nofun⟩, And.left⟩
  | error e =>
    by_cases he : e.Closes
    · have hclosed := isOpen_finish_of_closes (α := α) (h := h) he
      refine iff_of_false (fun hopen => ?_) fun hboth => hboth.2 e rfl he
      exact Bool.false_ne_true (hclosed.symm.trans hopen)
    · have hstays : (finish (.error e : Except Error α) h).2.isOpen = h.isOpen := by
        unfold finish
        rw [isOpen, conn_tell, if_neg (mt closes_iff.mpr he)]
        rfl
      rw [hstays]
      refine ⟨fun hopen => ⟨hopen, fun e' h' => ?_⟩, And.left⟩
      cases h'
      exact he

/-- An outcome changes neither settings nor time limits, and installs no handler. -/
theorem finish_keeps (outcome : Except Error α) (h : Handle) :
    (finish outcome h).2.settings = h.settings ∧ (finish outcome h).2.handler = h.handler ∧
      (finish outcome h).2.conn.line.timeouts = h.conn.line.timeouts := by
  cases outcome with
  | ok a => exact ⟨rfl, rfl, rfl⟩
  | error e =>
    unfold finish
    dsimp only
    obtain ⟨reports, hrun⟩ :=
      tell_eq (α := α) e (if e.isFatal || e = .timeout then h.close else h)
    rw [hrun]
    split <;> exact ⟨rfl, rfl, rfl⟩

/-- Closing a closed connection changes nothing. -/
theorem close_of_closed (hclosed : h.isOpen = false) : h.close = h := by
  obtain ⟨⟨line, native, format⟩, settings, handler, reports⟩ := h
  obtain ⟨inbound, outbound, intake, isOpen, timeouts⟩ := line
  obtain rfl : isOpen = false := hclosed
  rfl

/-- On a closed connection an outcome changes nothing of the connection. -/
theorem conn_finish_of_closed (outcome : Except Error α) (hclosed : h.isOpen = false) :
    (finish outcome h).2.conn = h.conn := by
  cases outcome with
  | ok a => rfl
  | error e =>
    unfold finish
    dsimp only
    rw [conn_tell, close_of_closed hclosed, ite_self]

/-- A failure goes to the handler while there is one, and the caller gets the empty result. -/
theorem finish_error_of_some (e : Error) {handler : Nat} (hhandler : h.handler = some handler) :
    (finish (.error e : Except Error α) h).1 = .ok default ∧
      (finish (.error e : Except Error α) h).2.reports = h.reports ++ [⟨handler, e⟩] := by
  unfold finish
  dsimp only
  split
  · rw [tell_of_some e (show h.close.handler = some handler from hhandler)]
    exact ⟨rfl, rfl⟩
  · rw [tell_of_some e hhandler]
    exact ⟨rfl, rfl⟩

/-- Without a handler a failure goes to the caller, and nothing is reported. -/
theorem finish_error_of_none (e : Error) (hhandler : h.handler = none) :
    (finish (.error e : Except Error α) h).1 = .error e ∧
      (finish (.error e : Except Error α) h).2.reports = h.reports := by
  unfold finish
  dsimp only
  split
  · rw [tell_of_none e (show h.close.handler = none from hhandler)]
    exact ⟨rfl, rfl⟩
  · rw [tell_of_none e hhandler]
    exact ⟨rfl, rfl⟩

end Handle

namespace Deed

open Session Exchange

variable {α : Type} {h : Handle} {d : Deed} {settings : ClientSettings}
  {c : Connection} {limit : Option Duration} {e : Error}

/-- A path that passes its check does not get in the way. -/
theorem checked_of_ok {p : Path} (hp : p.check settings.maxNameLength = .ok ()) (x : Session α) :
    checked settings p x = x := by
  rw [checked, hp]
  rfl

/-- A path that does not pass its check is refused before anything is done. -/
theorem checked_of_error {p : Path} (hp : p.check settings.maxNameLength = .error e)
    (x : Session α) (c : Connection) : checked settings p x c = (.error e, c) := by
  rw [checked, hp]
  rfl

/-- Performing at a path is performing what checks the path first. -/
theorem performAt_eq [Inhabited α] (p : Path) (act : ClientSettings → Session α) (h : Handle) :
    Handle.performAt p act h =
      Handle.perform (fun settings => checked settings p (act settings)) h := by
  cases hp : p.check h.settings.maxNameLength with
  | ok u => rw [Handle.performAt_of_check hp, Handle.perform, Handle.perform, checked_of_ok hp]
  | error e =>
    rw [Handle.perform, checked_of_error hp]
    simp only [Handle.performAt, hp]

/-- Every deed is an attempt whose outcome is handed on to the handler that is then installed. -/
theorem run_eq (d : Deed) (h : Handle) :
    d.run h = Handle.finish (d.attempt h.settings h.conn).1
      { h with
        conn := (d.attempt h.settings h.conn).2
        handler := d.installs h.handler } := by
  cases d with
  | operate op => cases op <;> exact performAt_eq ..
  | reconnect => rfl
  | close => rfl
  | watch handler => rfl
  | unwatch => rfl

/-- Every operation ends under the communication timeout. -/
theorem settles_operate (settings : ClientSettings) (op : Operation) :
    Settles settings.communicationTimeout ((operate op).attempt settings) := by
  cases op with
  | call path args =>
    exact (keeps_ofExcept _).settles.bind fun _ => call_settles settings path args
  | get path => exact (keeps_ofExcept _).settles.bind fun _ => (get_keeps_steady path).settles
  | set path key value =>
    exact (keeps_ofExcept _).settles.bind fun _ => (set_keeps_steady path key value).settles

/-- No deed leaves another time limit in force. -/
theorem limitedBy_attempt (d : Deed) (hc : c.LimitedBy settings.communicationTimeout) :
    (d.attempt settings c).2.LimitedBy settings.communicationTimeout := by
  cases d with
  | operate op => exact (settles_operate settings op c).2 hc
  | reconnect =>
    have htimeouts : (negotiateClient c).2.line.timeouts = c.line.timeouts := by
      cases hopen : c.isOpen with
      | true =>
        rcases negotiateClient_cases hopen with
          ⟨agreed, later, hrun, -, hsteady⟩ | ⟨e, later, hrun, -, -, -, htimeouts⟩
        · rw [hrun]
          exact congrArg Prod.snd hsteady
        · rw [hrun]
          exact htimeouts
      | false => rw [negotiateClient_of_closed hopen]
    exact (congrArg List.getLast? htimeouts).trans hc
  | close => exact hc
  | watch handler => exact hc
  | unwatch => exact hc

/-- On an open connection a deed leaves it open, or it closes it on purpose, or it fails with an
error that calls for closing it. -/
theorem attempt_of_open (settings : ClientSettings) (d : Deed) (hopen : c.isOpen = true) :
    (d.attempt settings c).2.isOpen = true ∧ d ≠ .close ∨
      (d.attempt settings c).2.isOpen = false ∧ d = .close ∨
      ∃ e, (d.attempt settings c).1 = .error e ∧ e.Closes := by
  cases d with
  | operate op =>
    have hstanding := (settles_operate settings op c).1
    exact .inl ⟨(congrArg Prod.fst hstanding).trans hopen, nofun⟩
  | reconnect =>
    rcases negotiateClient_cases hopen with
      ⟨agreed, later, hrun, -, hsteady⟩ | ⟨e, later, hrun, he, -⟩
    · left
      have hstanding : later.standing = c.standing := congrArg Prod.fst hsteady
      refine ⟨?_, nofun⟩
      rw [attempt, hrun]
      exact (congrArg Prod.fst hstanding).trans hopen
    · exact .inr (.inr ⟨e, congrArg Prod.fst hrun, he⟩)
  | close => exact .inr (.inl ⟨rfl, rfl⟩)
  | watch handler => exact .inl ⟨hopen, nofun⟩
  | unwatch => exact .inl ⟨hopen, nofun⟩

/-- An exchange that fails without touching the connection still fails so behind the check of its
path, unless the check refuses an overlong name. -/
theorem checked_of_untouched (settings : ClientSettings) {x : Session α} {e' : Error}
    (hx : x c = (.error e', c)) (p : Path) :
    ∃ e, checked settings p x c = (.error e, c) ∧
      (p.Refuses settings.maxNameLength e ∨
        (∀ name ∈ p.segments, name.utf8ByteSize ≤ settings.maxNameLength) ∧ e = e') := by
  rcases p.check_cases settings.maxNameLength with ⟨hok, hnames⟩ | ⟨e, herror, hrefuses⟩
  · rw [checked_of_ok hok]
    exact ⟨e', hx, .inr ⟨hnames, rfl⟩⟩
  · exact ⟨e, checked_of_error herror x c, .inl hrefuses⟩

/-- On a closed connection an operation fails before it touches the connection: for an overlong
name, or else for too many arguments, or else because the connection is closed. -/
theorem operate_of_closed (settings : ClientSettings) (op : Operation)
    (hclosed : c.isOpen = false) :
    ∃ e, (operate op).attempt settings c = (.error e, c) ∧
      (op.path.Refuses settings.maxNameLength e ∨
        (∀ name ∈ op.path.segments, name.utf8ByteSize ≤ settings.maxNameLength) ∧
          (op.Countable ∧ e = .closed ∨ ¬ op.Countable ∧ e = .protocol .tooManyArguments)) := by
  cases op with
  | call path args =>
    by_cases hcount : UInt32.size ≤ args.length
    · have hcall := call_of_crowded settings hcount path c
      obtain ⟨e, hrun, hcases⟩ := checked_of_untouched settings hcall path
      exact ⟨e, hrun, hcases.imp_right (And.imp_right fun he =>
        .inr ⟨Nat.not_lt_of_le hcount, he⟩)⟩
    · have hcall : call settings path args c = (.error .closed, c) := by
        rw [call, if_neg hcount]
        exact start_bind_of_closed hclosed .call
      obtain ⟨e, hrun, hcases⟩ := checked_of_untouched settings hcall path
      exact ⟨e, hrun, hcases.imp_right (And.imp_right fun he =>
        .inl ⟨Nat.lt_of_not_le hcount, he⟩)⟩
  | get path =>
    have hget : Exchange.get path c = (.error .closed, c) := start_bind_of_closed hclosed .get
    obtain ⟨e, hrun, hcases⟩ := checked_of_untouched settings hget path
    exact ⟨e, hrun, hcases.imp_right (And.imp_right fun he => .inl ⟨trivial, he⟩)⟩
  | set path key value =>
    have hset : Exchange.set path key value c = (.error .closed, c) :=
      start_bind_of_closed hclosed .set
    obtain ⟨e, hrun, hcases⟩ := checked_of_untouched settings hset path
    exact ⟨e, hrun, hcases.imp_right (And.imp_right fun he => .inl ⟨trivial, he⟩)⟩

/-- No deed touches a closed connection. -/
theorem attempt_of_closed (settings : ClientSettings) (d : Deed) (hclosed : c.isOpen = false) :
    (d.attempt settings c).2 = c := by
  cases d with
  | operate op =>
    obtain ⟨e, hrun, -⟩ := operate_of_closed settings op hclosed
    rw [hrun]
  | reconnect => rw [attempt, negotiateClient_of_closed hclosed]
  | close =>
    obtain ⟨⟨inbound, outbound, intake, isOpen, timeouts⟩, native, format⟩ := c
    obtain rfl : isOpen = false := hclosed
    rfl
  | watch handler => rfl
  | unwatch => rfl

end Deed

namespace Handle

variable {h : Handle} {d : Deed} {limit : Option Duration}

/-- No deed changes the settings of a handle. -/
theorem settings_run (d : Deed) (h : Handle) : (d.run h).2.settings = h.settings := by
  rw [d.run_eq h]
  exact (finish_keeps _ _).1

/-- Only installing and removing a handler change which one is installed. -/
theorem handler_run (d : Deed) (h : Handle) : (d.run h).2.handler = d.installs h.handler := by
  rw [d.run_eq h]
  exact (finish_keeps _ _).2.1

/-- A deed leaves a connection under the communication timeout if it was under it. -/
theorem limitedBy_run (d : Deed) (hlimit : h.conn.LimitedBy h.settings.communicationTimeout) :
    (d.run h).2.conn.LimitedBy (d.run h).2.settings.communicationTimeout := by
  rw [settings_run, d.run_eq h]
  exact (congrArg List.getLast? (finish_keeps _ _).2.2).trans (Deed.limitedBy_attempt d hlimit)

/-- The failure of a deed is the error of what it attempts. -/
theorem failure?_eq_some {e : Error} :
    d.failure? h = some e ↔ (d.attempt h.settings h.conn).1 = .error e := by
  unfold Deed.failure?
  cases (d.attempt h.settings h.conn).1 <;> simp

/-- A handle is open after a deed exactly when its connection is and the failure does not close it.
-/
theorem isOpen_run (d : Deed) (h : Handle) :
    (d.run h).2.isOpen = true ↔
      (d.attempt h.settings h.conn).2.isOpen = true ∧ ∀ e, d.failure? h = some e → ¬ e.Closes := by
  rw [d.run_eq h, isOpen_finish]
  simp only [failure?_eq_some]
  rfl

/-- A handle that is open stays so exactly when it is not closed on purpose and the deed does not
fail with an error that calls for closing it. -/
theorem isOpen_run_iff (d : Deed) (hopen : h.isOpen = true) :
    (d.run h).2.isOpen = true ↔ d ≠ .close ∧ ∀ e, d.failure? h = some e → ¬ e.Closes := by
  rw [isOpen_run]
  rcases Deed.attempt_of_open h.settings d hopen with
    ⟨hstays, hne⟩ | ⟨hcloses, heq⟩ | ⟨e, he, hcloses⟩
  · exact and_congr_left fun _ => iff_of_true hstays hne
  · refine and_congr_left fun _ => iff_of_false ?_ (not_not_intro heq)
    rw [hcloses]
    exact Bool.false_ne_true
  · have hnot : ¬ ∀ e, d.failure? h = some e → ¬ e.Closes :=
      fun hall => hall e (failure?_eq_some.mpr he) hcloses
    exact iff_of_false (fun hboth => hnot hboth.2) fun hboth => hnot hboth.2

/-- Nothing that is done with a closed handle touches its connection. -/
theorem conn_run_of_closed (d : Deed) (hclosed : h.isOpen = false) :
    (d.run h).2.conn = h.conn := by
  have hconn := Deed.attempt_of_closed h.settings d hclosed
  rw [d.run_eq h, hconn]
  exact conn_finish_of_closed _ hclosed

/-- A handle that is closed stays closed. -/
theorem isOpen_afterAll_of_closed (hclosed : h.isOpen = false) (deeds : List Deed) :
    (h.afterAll deeds).isOpen = false := by
  induction deeds generalizing h with
  | nil => exact hclosed
  | cons d rest ih =>
    refine ih (h := (d.run h).2) ?_
    rw [isOpen, conn_run_of_closed d hclosed]
    exact hclosed

/-- A handle that was open is so after some deeds exactly when none of them closed it on purpose and
none failed with an error that calls for closing it. -/
theorem isOpen_afterAll_iff (hopen : h.isOpen = true) (deeds : List Deed) :
    (h.afterAll deeds).isOpen = true ↔
      .close ∉ deeds ∧ ∀ e ∈ h.failures deeds, ¬ e.Closes := by
  induction deeds generalizing h with
  | nil => simp [afterAll, failures, hopen]
  | cons d rest ih =>
    have hstep := isOpen_run_iff d hopen
    have hsplit : (.close ∉ d :: rest ∧ ∀ e ∈ h.failures (d :: rest), ¬ e.Closes) ↔
        (d ≠ .close ∧ ∀ e, d.failure? h = some e → ¬ e.Closes) ∧
          (.close ∉ rest ∧ ∀ e ∈ (d.run h).2.failures rest, ¬ e.Closes) := by
      simp only [failures, List.mem_cons, not_or, List.mem_append, Option.mem_toList, or_imp,
        forall_and, ne_comm (a := d)]
      exact and_and_and_comm
    rw [hsplit, ← hstep]
    cases hnext : (d.run h).2.isOpen with
    | true =>
      rw [← ih hnext]
      simp only [true_and]
      rfl
    | false =>
      have hlast : (h.afterAll (d :: rest)).isOpen = false := isOpen_afterAll_of_closed hnext rest
      rw [hlast]
      simp

/-- A handle comes of a handshake that succeeded: it is open, in a format that is supported and
under the usual time limit, and no handler is installed. -/
theorem of_ofLine {line : Line} {settings : ClientSettings} {conn : Connection}
    (hstart : ofLine line settings = (.ok h, conn)) :
    h.isOpen = true ∧ h.settings = settings ∧ h.handler = none ∧ h.reports = [] ∧
      h.conn.LimitedBy settings.communicationTimeout ∧ h.conn.native = settings.format ∧
      h.conn.format.isSupported = true := by
  unfold ofLine at hstart
  cases hopen : line.isOpen with
  | false =>
    rw [Exchange.connect_of_closed (c := .ofLine line settings.format) hopen] at hstart
    cases hstart
  | true =>
    have hlimited : ((Connection.ofLine line settings.format).limitTo
        settings.communicationTimeout).isOpen = true := hopen
    rw [Exchange.connect_of_open (c := .ofLine line settings.format) hopen] at hstart
    rcases Session.negotiateClient_cases hlimited with
      ⟨agreed, later, hrun, hagreed, hsteady⟩ | ⟨e, later, hrun, -⟩
    · rw [hrun] at hstart
      cases hstart
      simp only [Connection.steady, Connection.standing, Prod.mk.injEq] at hsteady
      obtain ⟨⟨hstill, hnative, -⟩, htimeouts⟩ := hsteady
      refine ⟨hstill.trans hopen, rfl, rfl, rfl, ?_, hnative, hagreed⟩
      exact (congrArg List.getLast? htimeouts).trans (Connection.limitedBy_limitTo _ _)
    · rw [hrun] at hstart
      cases hstart

/-- How a handle stands after what was done with it since it was negotiated, and what becomes of
whatever is done next. -/
structure Orderly (settings : ClientSettings) (start : Handle) (past : List Deed) (now : Handle) :
    Prop where
  /-- It is open exactly when it was not closed on purpose and nothing has failed with an error that
  calls for closing it. -/
  isOpen_iff : now.isOpen = true ↔ .close ∉ past ∧ ∀ e ∈ start.failures past, ¬ e.Closes
  /-- A failed renegotiation closes it. -/
  reconnect_closes : ∀ e, Deed.reconnect.failure? now = some e →
    (Deed.reconnect.run now).2.isOpen = false
  /-- Once closed it stays closed, and nothing is read or written any more. -/
  stays_closed : now.isOpen = false → ∀ d : Deed,
    (d.run now).2.isOpen = false ∧ (d.run now).2.conn = now.conn
  /-- Once closed it cannot be negotiated again. -/
  reconnect_fails : now.isOpen = false → Deed.reconnect.failure? now = some .closed
  /-- Once closed it fails every operation because it is closed, unless the operation is refused
  before that: for an overlong name, or for arguments whose count has no word. -/
  operate_fails : now.isOpen = false → ∀ op : Operation,
    ∃ e, (Deed.operate op).failure? now = some e ∧
      (op.path.Refuses settings.maxNameLength e ∨
        (∀ name ∈ op.path.segments, name.utf8ByteSize ≤ settings.maxNameLength) ∧
          (op.Countable ∧ e = .closed ∨ ¬ op.Countable ∧ e = .protocol .tooManyArguments))
  /-- The handler is the one that was installed last, unless it was removed since then. -/
  handler_eq : now.handler = past.foldl Deed.installs none
  /-- The handlers have been told of every failure that came while one was installed, each once, by
  the handler that was installed then, and of nothing else. -/
  reports_eq : now.reports = start.told none past
  /-- A success goes to the caller, and nothing is reported. -/
  success : ∀ d : Deed, d.failure? now = none →
    (∃ a, (d.run now).1 = .ok a) ∧ (d.run now).2.reports = now.reports
  /-- A failure goes once to the handler, if there is one, and the caller gets the empty result. -/
  failure_watched : ∀ (d : Deed) (e : Error) (handler : Nat), d.failure? now = some e →
    now.handler = some handler →
    (d.run now).1 = .ok default ∧ (d.run now).2.reports = now.reports ++ [⟨handler, e⟩]
  /-- Without a handler a failure goes to the caller, and nothing is reported. -/
  failure_unwatched : ∀ (d : Deed) (e : Error), d.failure? now = some e → now.handler = none →
    (d.run now).1 = .error e ∧ (d.run now).2.reports = now.reports
  /-- While it is open it is under the usual time limit. -/
  limited : now.isOpen = true → now.conn.LimitedBy settings.communicationTimeout

/-- What has failed neither installed nor removed a handler. -/
theorem installs_of_failure {e : Error} (hfailure : d.failure? h = some e)
    (handler : Option Nat) : d.installs handler = handler := by
  cases d with
  | operate op => rfl
  | reconnect => rfl
  | close => rfl
  | watch handler => cases hfailure
  | unwatch => cases hfailure

/-- A success goes to the caller, and no handler is told anything. -/
theorem run_of_success (hsuccess : d.failure? h = none) :
    (∃ a, (d.run h).1 = .ok a) ∧ (d.run h).2.reports = h.reports := by
  unfold Deed.failure? at hsuccess
  rw [d.run_eq h]
  cases hattempt : (d.attempt h.settings h.conn).1 with
  | ok a => exact ⟨⟨a, rfl⟩, rfl⟩
  | error e =>
    rw [hattempt] at hsuccess
    cases hsuccess

/-- A failure goes to the handler that is installed, and the caller gets the empty result. -/
theorem run_of_failure_some {e : Error} {handler : Nat} (hfailure : d.failure? h = some e)
    (hhandler : h.handler = some handler) :
    (d.run h).1 = .ok default ∧ (d.run h).2.reports = h.reports ++ [⟨handler, e⟩] := by
  rw [d.run_eq h, failure?_eq_some.mp hfailure]
  exact finish_error_of_some e ((installs_of_failure hfailure _).trans hhandler)

/-- A failure goes to the caller when no handler is installed. -/
theorem run_of_failure_none {e : Error} (hfailure : d.failure? h = some e)
    (hhandler : h.handler = none) :
    (d.run h).1 = .error e ∧ (d.run h).2.reports = h.reports := by
  rw [d.run_eq h, failure?_eq_some.mp hfailure]
  exact finish_error_of_none e ((installs_of_failure hfailure _).trans hhandler)

/-- What one deed adds to the reports. -/
theorem reports_run (d : Deed) (h : Handle) :
    (d.run h).2.reports = h.reports ++ (d.report? h h.handler).toList := by
  cases hfailure : d.failure? h with
  | none =>
    have hnothing : d.report? h h.handler = none := by simp [Deed.report?, hfailure]
    rw [(run_of_success hfailure).2, hnothing]
    exact (List.append_nil _).symm
  | some e =>
    cases hhandler : h.handler with
    | none =>
      rw [(run_of_failure_none hfailure hhandler).2, Deed.report?, Option.bind_none]
      exact (List.append_nil _).symm
    | some handler =>
      rw [(run_of_failure_some hfailure hhandler).2, Deed.report?, hfailure]
      rfl

/-- Over any deeds, each failure is reported once, to the handler that is installed when it comes.
-/
theorem reports_afterAll (deeds : List Deed) (h : Handle) :
    (h.afterAll deeds).reports = h.reports ++ h.told h.handler deeds := by
  induction deeds generalizing h with
  | nil => exact (List.append_nil _).symm
  | cons d rest ih =>
    rw [told, ← List.append_assoc, ← reports_run, ← handler_run]
    exact ih (d.run h).2

/-- A renegotiation that fails closes the handle. -/
theorem isOpen_reconnect {e : Error} (hfailure : Deed.reconnect.failure? h = some e) :
    (Deed.reconnect.run h).2.isOpen = false := by
  cases hopen : h.isOpen with
  | false =>
    rw [isOpen, conn_run_of_closed _ hopen]
    exact hopen
  | true =>
    have hattempt : (Session.negotiateClient h.conn).1 = .error e := failure?_eq_some.mp hfailure
    rcases Session.negotiateClient_cases hopen with ⟨_, _, hrun, -⟩ | ⟨e', later, hrun, he, -⟩
    · rw [hrun] at hattempt
      cases hattempt
    · rw [hrun] at hattempt
      cases hattempt
      refine Bool.eq_false_iff.mpr fun hstays => ?_
      exact ((isOpen_run_iff .reconnect hopen).mp hstays).2 e hfailure he

/-- What does not change, the handler that the deeds leave installed, and the time limit, over any
deeds. -/
theorem afterAll_keeps (deeds : List Deed)
    (hlimit : h.conn.LimitedBy h.settings.communicationTimeout) :
    (h.afterAll deeds).settings = h.settings ∧
      (h.afterAll deeds).handler = deeds.foldl Deed.installs h.handler ∧
      (h.afterAll deeds).conn.LimitedBy h.settings.communicationTimeout := by
  induction deeds generalizing h with
  | nil => exact ⟨rfl, rfl, hlimit⟩
  | cons d rest ih =>
    obtain ⟨hsettings, hhandler, hlast⟩ := ih (limitedBy_run d hlimit)
    rw [settings_run] at hsettings hlast
    rw [handler_run] at hhandler
    exact ⟨hsettings, hhandler, hlast⟩

/-- The life of a handle is in order whatever is done with it, whatever its line brings and takes,
and whatever failed before. -/
theorem orderly_of_ofLine (line : Line) (settings : ClientSettings) (start : Handle)
    (conn : Connection) (hstart : ofLine line settings = (.ok start, conn)) (past : List Deed) :
    Orderly settings start past (start.afterAll past) := by
  obtain ⟨hopen, rfl, hnone, hsilent, hlimit, -, -⟩ := of_ofLine hstart
  obtain ⟨hsettings, hhandler, hlimited⟩ := start.afterAll_keeps past hlimit
  have hreports := start.reports_afterAll past
  refine
    { isOpen_iff := isOpen_afterAll_iff hopen past
      reconnect_closes := fun e => isOpen_reconnect
      stays_closed := ?_
      reconnect_fails := ?_
      operate_fails := ?_
      handler_eq := hnone ▸ hhandler
      reports_eq := by rw [hreports, hsilent, hnone, List.nil_append]
      success := fun d => run_of_success
      failure_watched := fun d e handler => run_of_failure_some
      failure_unwatched := fun d e => run_of_failure_none
      limited := fun _ => hlimited }
  · intro hclosed d
    have hconn := conn_run_of_closed d hclosed
    refine ⟨?_, hconn⟩
    rw [isOpen, hconn]
    exact hclosed
  · intro hclosed
    exact failure?_eq_some.mpr (congrArg Prod.fst (Session.negotiateClient_of_closed hclosed))
  · intro hclosed op
    obtain ⟨e, hattempt, hcases⟩ :=
      Deed.operate_of_closed (start.afterAll past).settings op hclosed
    rw [hsettings] at hcases
    exact ⟨e, failure?_eq_some.mpr (congrArg Prod.fst hattempt), hcases⟩

/-- A server that answers a greeting, consents to a request, and then keeps silent for too long. -/
def faltering : Line :=
  { inbound := { coming := [.chunk ((Header.ofFormat .host).encode ++ [Status.ready.toByte]),
      .fault (.plain .timedOut)] } }

/-- A handler takes the place of another one, and then a call gets no outcome in time. -/
def falteringDeeds : List Deed := [.watch 0, .watch 1, .operate (.call ⟨["f"]⟩ [])]

/-- A call that gets no outcome in time closes its handle, and the later handler alone is told so.
-/
theorem orderly_of_ofLine_faltering :
    ∃ start conn, ofLine faltering {} = (.ok start, conn) ∧
      Orderly {} start falteringDeeds (start.afterAll falteringDeeds) ∧
      (start.afterAll falteringDeeds).isOpen = false ∧
      (start.afterAll falteringDeeds).reports = [⟨1, .timeout⟩] := by
  have hends : (ofLine faltering {}).1.toOption.map (fun start =>
      ((start.afterAll falteringDeeds).isOpen, (start.afterAll falteringDeeds).reports)) =
      some (false, [⟨1, .timeout⟩]) := by
    decide +kernel
  cases hrun : ofLine faltering {} with
  | mk result conn =>
    rw [hrun] at hends
    cases result with
    | error e => cases hends
    | ok start =>
      obtain ⟨hclosed, hreports⟩ := Prod.mk.inj (Option.some.inj hends)
      exact ⟨start, conn, rfl, orderly_of_ofLine faltering {} start conn hrun _, hclosed, hreports⟩

/-- A call with one argument more than a count has a word for. -/
def crowdedCall : Operation := .call ⟨["f"]⟩ (List.replicate UInt32.size .nil)

/-- On a handle that was closed such a call is refused for its arguments, and not because the handle
is closed, nor for a name. -/
theorem crowdedCall_on_closed :
    ∃ start conn, ofLine faltering {} = (.ok start, conn) ∧
      (start.afterAll [.close]).isOpen = false ∧
      ∃ e, (Deed.operate crowdedCall).failure? (start.afterAll [.close]) = some e ∧
        e = .protocol .tooManyArguments ∧
        e ≠ .closed ∧ ∀ limit, ¬ crowdedCall.path.Refuses limit e := by
  have hstarts : (ofLine faltering {}).1.toOption.isSome = true := by decide +kernel
  cases hrun : ofLine faltering {} with
  | mk result conn =>
    rw [hrun] at hstarts
    cases result with
    | error e => cases hstarts
    | ok start =>
      obtain ⟨-, hsettings, -⟩ := of_ofLine hrun
      have hname : Path.check ⟨["f"]⟩ start.settings.maxNameLength = .ok () := by
        rw [hsettings]
        rfl
      have hcount : UInt32.size ≤ (List.replicate UInt32.size Value.nil).length :=
        Nat.le_of_eq List.length_replicate.symm
      have hcall : (Deed.operate crowdedCall).attempt start.settings =
          Exchange.call start.settings ⟨["f"]⟩ (List.replicate UInt32.size .nil) :=
        Deed.checked_of_ok hname _
      have hattempt : ((Deed.operate crowdedCall).attempt start.settings start.conn.close).1 =
          .error (.protocol .tooManyArguments) := by
        rw [hcall]
        exact congrArg Prod.fst (Exchange.call_of_crowded _ hcount _ _)
      refine ⟨start, conn, rfl, rfl, _, failure?_eq_some.mpr hattempt, rfl, nofun, ?_⟩
      rintro limit ⟨before, name, after, -, -, -, he⟩
      cases he

end Handle

end RemoteCall
