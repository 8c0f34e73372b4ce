import RemoteCall.Client.Handle
import RemoteCall.Proofs.Conversation
import RemoteCall.Proofs.Wire.Frame

/-!
# Request boundaries of a handle

What an operation leaves on the line when its handle stays open. A failure of the line closes the
handle, whatever it is, so the only failures left are those of the encoder and of the reply. By the
time of the reply the request is complete; but the encoder can refuse a path or a value when the
command byte and what stands before it are gone, and then the handle stays open inside a request.
-/

namespace RemoteCall

namespace Error

/-- A handle closes its connection on the error. -/
def Closes (e : Error) : Prop := e.isFatal = true ∨ e = .timeout

/-- Whatever a line fails with closes the connection. -/
theorem closes_ofIo (e : IoError) : (ofIo e).Closes := by
  unfold ofIo
  split
  · exact .inl rfl
  · exact .inr rfl
  · exact .inr rfl
  · exact .inl rfl

end Error

/-- Bytes that do not come close the connection. -/
theorem Inbound.gather_error_closes {n : Nat} {held : List UInt8} {coming : List Arrival}
    {e : Error} (h : (gather n held coming).1 = .error e) : e.Closes := by
  induction coming generalizing held with
  | nil =>
    unfold gather at h
    dsimp only at h
    split at h
    · cases h
    · cases h
      exact .inl rfl
  | cons arrival rest ih =>
    unfold gather at h
    dsimp only at h
    split at h
    · cases h
    · cases arrival with
      | chunk bytes =>
        cases bytes with
        | nil =>
          cases h
          exact .inl rfl
        | cons b bs => exact ih h
      | fault error =>
        dsimp only at h
        split at h
        · exact ih h
        · cases h
          exact Error.closes_ofIo error

/-- A byte that does not come closes the connection. -/
theorem Reader.byte_error_closes {input later : Inbound} {e : Error}
    (h : byte input = (.error e, later)) : e.Closes := by
  cases hread : take 1 input with
  | mk result rest =>
    cases result with
    | ok bs =>
      rw [byte, bind_of_ok hread] at h
      exact nomatch h
    | error e' =>
      rw [byte, bind_of_error hread] at h
      cases h
      exact Inbound.gather_error_closes (congrArg Prod.fst hread)

namespace Session

open Connection

variable {α β : Type} {f : Format} {x : Session Unit} {a b : Emission}

/-- The session sends this emission and ends as it does, unless an error closes the connection. -/
def Writes (f : Format) (x : Session Unit) (a : Emission) : Prop :=
  ∀ c, c.OpenIn f →
    (∃ e later, x c = (.error e, later) ∧ e.Closes) ∨
    ∃ later, x c = (sendResult (.ok ()) a.failure, later) ∧ later.OpenIn f ∧
      later.line.written = c.line.written ++ a.bytes

/-- However the session ends on a connection, it leaves this emission behind what was sent before,
unless an error closes the connection. -/
def LeavesOn (c : Connection) (x : Session α) (a : Emission) : Prop :=
  (∃ e later, x c = (.error e, later) ∧ e.Closes) ∨
    ∃ result later, x c = (result, later) ∧ later.line.written = c.line.written ++ a.bytes

/-- The session leaves this emission on every open connection in the format. -/
def Leaves (f : Format) (x : Session α) (a : Emission) : Prop :=
  ∀ c, c.OpenIn f → LeavesOn c x a

/-- What is sent on an open connection is the emission in its format. -/
theorem send_writes (f : Format) (emission : Format → Emission) :
    Writes f (send emission) (emission f) := by
  intro c hc
  rw [send_run hc.isOpen, hc.format_eq]
  rcases c.line.write_cases (emission f).bytes with ⟨hok, hwritten⟩ | ⟨e, he⟩
  · right
    rw [hok]
    refine ⟨_, rfl, ⟨?_, rfl⟩, hwritten⟩
    exact (c.line.write_keeps (emission f).bytes).2.1.trans hc.isOpen
  · left
    rw [he]
    exact ⟨_, _, rfl, Error.closes_ofIo e⟩

/-- Handing on what was sent sends nothing more. -/
theorem flush_writes (f : Format) : Writes f flush (.ofBytes []) := by
  intro c hc
  rw [flush_run hc.isOpen]
  rcases c.line.flush_cases with ⟨hok, hwritten⟩ | ⟨e, he⟩
  · right
    rw [hok]
    refine ⟨_, rfl, ⟨c.line.flush_keeps.2.1.trans hc.isOpen, hc.format_eq⟩, ?_⟩
    exact hwritten.trans (List.append_nil _).symm
  · left
    rw [he]
    exact ⟨_, _, rfl, Error.closes_ofIo e⟩

/-- A session that sends nothing leaves nothing. -/
theorem Keeps.leaves {y : Session α} (h : Keeps outgoing y) : Leaves f y (.ofBytes []) := by
  intro c _
  refine .inr ⟨(y c).1, (y c).2, rfl, ?_⟩
  exact (written_of_outgoing (h c)).trans (List.append_nil _).symm

/-- After what was sent completely comes the rest, and after a refusal nothing. -/
theorem Writes.bind_leaves {y : Session β} (hx : Writes f x a) (hy : Leaves f y b) :
    Leaves f (x >>= fun _ => y) (a ++ b) := by
  intro c hc
  obtain ⟨bytes, failure⟩ := a
  rcases hx c hc with ⟨e, later, hrun, he⟩ | ⟨later, hrun, hlater, hwritten⟩
  · exact .inl ⟨e, later, bind_of_error hrun, he⟩
  · cases failure with
    | some e => exact .inr ⟨_, later, bind_of_error hrun, hwritten⟩
    | none =>
      unfold LeavesOn
      rw [bind_of_ok hrun]
      rcases hy later hlater with hclosed | ⟨result, last, hlast, hend⟩
      · exact .inl hclosed
      · refine .inr ⟨result, last, hlast, ?_⟩
        rw [hend, hwritten, List.append_assoc]
        rfl

/-- What follows and sends nothing adds nothing. -/
theorem Writes.bind_rest {y : Session β} (hx : Writes f x a) (hy : Leaves f y (.ofBytes [])) :
    Leaves f (x >>= fun _ => y) a := by
  have h := hx.bind_leaves hy
  rwa [Emission.append_ofBytes_nil] at h

/-- One emission after the other is their concatenation. -/
theorem Writes.bind {y : Session Unit} (hx : Writes f x a) (hy : Writes f y b) :
    Writes f (x >>= fun _ => y) (a ++ b) := by
  intro c hc
  obtain ⟨bytes, failure⟩ := a
  rcases hx c hc with ⟨e, later, hrun, he⟩ | ⟨later, hrun, hlater, hwritten⟩
  · exact .inl ⟨e, later, bind_of_error hrun, he⟩
  · cases failure with
    | some e => exact .inr ⟨later, bind_of_error hrun, hlater, hwritten⟩
    | none =>
      rw [bind_of_ok hrun]
      rcases hy later hlater with hclosed | ⟨last, hlast, hopen, hend⟩
      · exact .inl hclosed
      · refine .inr ⟨last, hlast, hopen, ?_⟩
        rw [hend, hwritten, List.append_assoc]
        rfl

end Session

namespace Exchange

open Session Connection

variable {f : Format} {c : Connection}

/-- Values are sent one after the other. -/
theorem sendValues_writes (f : Format) (vs : List Value) :
    Writes f (sendValues vs) (.values f vs) := by
  induction vs with
  | nil =>
    intro c hc
    exact .inr ⟨c, rfl, hc, (List.append_nil _).symm⟩
  | cons v vs ih => exact (send_writes f (v.encode ·)).bind ih

section

variable {γ : Type} {view : Connection → γ}
  (hview : ∀ {β : Type} (reader : Format → Reader β), Keeps view (receive reader))

include hview

/-- Reading values leaves what every reading leaves. -/
theorem readValues_keeps (count : Nat) : Keeps view (readValues count) := by
  induction count with
  | zero => exact keeps_pure []
  | succ count ih => exact (hview _).bind fun v => ih.bind fun vs => keeps_pure (v :: vs)

/-- Reading the failure of the other side keeps whatever reading it keeps. -/
theorem remoteFailure_keeps {α : Type} : Keeps view (remoteFailure : Session α) :=
  (hview _).bind fun _ => (hview _).bind fun _ => keeps_throw _

end

/-- The server answers a command with its consent, if with anything. -/
def Consents (c : Connection) : Prop :=
  ∀ b later, Reader.byte c.line.inbound = (.ok b, later) → b = Status.ready.toByte

/-- A server that consents gets the command byte and nothing else before it has consented. -/
theorem start_writes (hc : c.OpenIn f) (hserver : Consents c) (command : Command) :
    (∃ e later, start command c = (.error e, later) ∧ e.Closes) ∨
    ∃ later, start command c = (.ok (), later) ∧ later.OpenIn f ∧
      later.line.written = c.line.written ++ [command.toByte] := by
  have hsend : Writes f (writeByte command.toByte >>= fun _ => flush)
      (.byte command.toByte ++ .ofBytes []) :=
    (send_writes f fun _ => .byte command.toByte).bind (flush_writes f)
  have hassoc : start command = ((writeByte command.toByte >>= fun _ => flush) >>= fun _ => do
      let answer ← readByte
      if answer = Status.ready.toByte then return ()
      else if answer = Status.unsupported.toByte then throw (.protocol (.unsupported command))
      else throw (.protocol (.notReady answer))) := by
    rw [bind_assoc]
    rfl
  have hinput : Keeps Connection.incoming (writeByte command.toByte >>= fun _ => flush) :=
    (send_keeps _).bind fun _ => Session.flush_keeps
  rcases hsend c hc with ⟨e, later, hrun, he⟩ | ⟨later, hrun, hlater, hwritten⟩
  · rw [hassoc]
    exact .inl ⟨e, later, bind_of_error hrun, he⟩
  · have hinbound : later.line.inbound = c.line.inbound := by
      have h := inbound_of_incoming (hinput c)
      rwa [hrun] at h
    rw [hassoc, bind_of_ok hrun]
    have hread := receive_run hlater.isOpen (fun _ => Reader.byte)
    rw [hinbound] at hread
    cases hbyte : Reader.byte c.line.inbound with
    | mk result input =>
      rw [hbyte] at hread
      cases result with
      | error e => exact .inl ⟨e, _, bind_of_error hread, Reader.byte_error_closes hbyte⟩
      | ok b =>
        have hready := hserver b input hbyte
        subst hready
        refine .inr ⟨later.withInput input, ?_, hlater.withInput input, hwritten⟩
        exact bind_of_ok hread

/-- An exchange leaves the command byte and what is sent after the server's consent. -/
theorem start_bind_leaves {α : Type} {y : Session α} {b : Emission} (hc : c.OpenIn f)
    (hserver : Consents c) (command : Command) (hy : Leaves f y b) :
    LeavesOn c (start command >>= fun _ => y) (.byte command.toByte ++ b) := by
  rcases start_writes hc hserver command with ⟨e, later, hrun, he⟩ | ⟨later, hrun, hlater, hwritten⟩
  · exact .inl ⟨e, later, bind_of_error hrun, he⟩
  · unfold LeavesOn
    rw [bind_of_ok hrun]
    rcases hy later hlater with hclosed | ⟨result, last, hlast, hend⟩
    · exact .inl hclosed
    · refine .inr ⟨result, last, hlast, ?_⟩
      rw [hend, hwritten, List.append_assoc]
      rfl

/-- The exchange of a call leaves the operation, whatever the reply. -/
theorem call_leaves (hc : c.OpenIn f) (hserver : Consents c) (settings : ClientSettings) (p : Path)
    {args : List Value} (hcount : args.length < UInt32.size) :
    LeavesOn c (call settings p args) ((Operation.call p args).emission f) := by
  unfold call
  rw [if_neg (Nat.not_le_of_lt hcount)]
  refine start_bind_leaves hc hserver .call ?_
  refine (send_writes f (Emission.text · p.text)).bind_leaves ?_
  refine (send_writes f (Emission.word · (UInt32.ofNat args.length))).bind_leaves ?_
  refine (sendValues_writes f args).bind_rest ((flush_writes f).bind_rest (Keeps.leaves ?_))
  refine (setTimeout_keeps_outgoing _).bind fun _ => ?_
  refine (receive_keeps _).observing.bind fun status => ?_
  refine (setTimeout_keeps_outgoing _).bind fun _ => (keeps_ofExcept status).bind fun status => ?_
  split
  · exact (receive_keeps _).bind fun count => readValues_keeps receive_keeps count.toNat
  · split
    · exact remoteFailure_keeps receive_keeps
    · exact keeps_throw _

/-- On a consenting connection a request to read leaves its whole emission. -/
theorem get_leaves (hc : c.OpenIn f) (hserver : Consents c) (p : Path) :
    LeavesOn c (get p) ((Operation.get p).emission f) := by
  refine start_bind_leaves hc hserver .get ?_
  refine (send_writes f (Emission.text · p.text)).bind_rest ?_
  exact (flush_writes f).bind_rest (receive_keeps _).leaves

/-- The exchange of an assignment leaves the operation, whatever the reply. -/
theorem set_leaves (hc : c.OpenIn f) (hserver : Consents c) (p : Path) (key value : Value) :
    LeavesOn c (set p key value) ((Operation.set p key value).emission f) := by
  refine start_bind_leaves hc hserver .set ?_
  refine (send_writes f (Emission.text · p.text)).bind_leaves ?_
  refine (send_writes f (key.encode ·)).bind_leaves ?_
  refine (send_writes f (value.encode ·)).bind_rest ((flush_writes f).bind_rest (Keeps.leaves ?_))
  refine (receive_keeps _).bind fun status => ?_
  split
  · exact keeps_pure ()
  · split
    · exact remoteFailure_keeps receive_keeps
    · exact keeps_throw _

/-- More arguments than their count has a word for are refused before anything is done. -/
theorem call_of_crowded (settings : ClientSettings) {args : List Value}
    (hcount : UInt32.size ≤ args.length) (p : Path) (c : Connection) :
    call settings p args c = (.error (.protocol .tooManyArguments), c) := by
  rw [call, if_pos hcount]
  rfl

end Exchange

/-- Tables inside one another, so many. -/
def Value.nested : Nat → Value
  | 0 => .nil
  | levels + 1 => .table [(.nil, nested levels)]

namespace Operation

def path : Operation → Path
  | .call path _ | .get path | .set path _ _ => path

/-- The client refuses the operation before it sends anything. -/
def Refused (limit : Nat) (op : Operation) : Prop := op.path.check limit ≠ .ok () ∨ ¬ op.Countable

end Operation

namespace Handle

open Session Exchange

variable {α : Type} [Inhabited α] {h : Handle}

/-- The handle after an operation, however it ended. -/
def after (h : Handle) : Operation → Handle
  | .call path args => (callPath path args h).2
  | .get path => (getPath path h).2
  | .set path key value => (setPath path key value h).2

/-- A handle is not watched when no handler is installed. -/
theorem watched_eq_false_iff : h.watched = false ↔ h.handler = none :=
  Option.isSome_eq_false_iff.trans Option.isNone_iff_eq_none

/-- A handler is told of a failure behind everything else, and the caller gets the empty result. -/
theorem tell_of_some (e : Error) {handler : Nat} (hhandler : h.handler = some handler) :
    (tell e h : Except Error α × Handle) =
      (.ok default, { h with reports := h.reports ++ [⟨handler, e⟩] }) := by
  rw [tell, hhandler]

/-- Without a handler the caller is told of a failure, and nothing changes. -/
theorem tell_of_none (e : Error) (hhandler : h.handler = none) :
    (tell e h : Except Error α × Handle) = (.error e, h) := by
  rw [tell, hhandler]

/-- Whoever is told of a failure, nothing but the reports changes. -/
theorem tell_eq (e : Error) (h : Handle) :
    ∃ reports, (tell e h : Except Error α × Handle).2 = { h with reports := reports } := by
  cases hhandler : h.handler with
  | some handler =>
    rw [tell_of_some e hhandler, ← hhandler]
    exact ⟨_, rfl⟩
  | none =>
    rw [tell_of_none e hhandler, ← hhandler]
    exact ⟨_, rfl⟩

/-- Telling of a failure leaves the connection. -/
@[simp] theorem conn_tell (e : Error) (h : Handle) :
    (tell e h : Except Error α × Handle).2.conn = h.conn := by
  obtain ⟨reports, hrun⟩ := tell_eq (α := α) e h
  rw [hrun]

/-- Finishing changes nothing that was sent. -/
theorem written_finish (outcome : Except Error α) :
    (finish outcome h).2.conn.line.written = h.conn.line.written := by
  unfold finish
  cases outcome with
  | ok a => rfl
  | error e =>
    rw [conn_tell]
    split <;> rfl

/-- Finishing with an error that closes the connection closes it. -/
theorem isOpen_finish_of_closes {e : Error} (he : e.Closes) :
    (finish (.error e : Except Error α) h).2.isOpen = false := by
  have hcloses : (e.isFatal || decide (e = .timeout)) = true := by
    rcases he with he | rfl
    · rw [he, Bool.true_or]
    · rfl
  unfold finish
  rw [isOpen, conn_tell, if_pos hcloses]
  rfl

/-- What an exchange leaves is what the handle has sent, provided that it stays open. -/
theorem written_perform {act : ClientSettings → Session α} {a : Emission}
    (hact : LeavesOn h.conn (act h.settings) a) (hopen : (perform act h).2.isOpen = true) :
    (perform act h).2.conn.line.written = h.conn.line.written ++ a.bytes := by
  unfold perform at hopen ⊢
  rcases hact with ⟨e, later, hrun, he⟩ | ⟨result, later, hrun, hwritten⟩
  · rw [hrun] at hopen
    exact absurd ((isOpen_finish_of_closes he).symm.trans hopen) Bool.false_ne_true
  · rw [hrun]
    exact (written_finish result).trans hwritten

/-- Behind a path that passes its check the act is performed. -/
theorem performAt_of_check {act : ClientSettings → Session α} {p : Path}
    (hp : p.check h.settings.maxNameLength = .ok ()) : performAt p act h = perform act h := by
  simp only [performAt, hp]

/-- What is left behind a path that passes its check is the emission of the act. -/
theorem written_performAt {act : ClientSettings → Session α} {p : Path} {a : Emission}
    (hp : p.check h.settings.maxNameLength = .ok ()) (hact : LeavesOn h.conn (act h.settings) a)
    (hopen : (performAt p act h).2.isOpen = true) :
    (performAt p act h).2.conn.line.written = h.conn.line.written ++ a.bytes := by
  rw [performAt_of_check hp] at hopen ⊢
  exact written_perform hact hopen

/-- A path with an overlong name is refused without a byte. -/
theorem written_performAt_of_check {act : ClientSettings → Session α} {p : Path}
    (hp : p.check h.settings.maxNameLength ≠ .ok ()) :
    (performAt p act h).2.conn.line.written = h.conn.line.written := by
  unfold performAt
  split
  · exact written_finish _
  · rename_i hok
    exact absurd hok hp

/-- Too many arguments are refused without a byte. -/
theorem written_callPath_of_count {p : Path} {args : List Value}
    (hp : p.check h.settings.maxNameLength = .ok ()) (hcount : UInt32.size ≤ args.length) :
    (callPath p args h).2.conn.line.written = h.conn.line.written := by
  rw [callPath, performAt_of_check hp, perform, Exchange.call_of_crowded h.settings hcount]
  exact written_finish _

/-- A refused operation sends nothing. -/
theorem written_after_of_refused {op : Operation} (hop : op.Refused h.settings.maxNameLength) :
    (h.after op).conn.line.written = h.conn.line.written := by
  by_cases hcheck : op.path.check h.settings.maxNameLength = .ok ()
  · have hcount := hop.resolve_left (not_not_intro hcheck)
    cases op with
    | call path args => exact written_callPath_of_count hcheck (Nat.le_of_not_lt hcount)
    | get path => exact absurd trivial hcount
    | set path key value => exact absurd trivial hcount
  · cases op with
    | call path args => exact written_performAt_of_check hcheck
    | get path => exact written_performAt_of_check hcheck
    | set path key value => exact written_performAt_of_check hcheck

/-- An operation that is not refused sends its emission, provided that the handle stays open. -/
theorem written_after {op : Operation} (hop : ¬ op.Refused h.settings.maxNameLength)
    (hopen : h.isOpen = true) (hserver : Consents h.conn) (hafter : (h.after op).isOpen = true) :
    (h.after op).conn.line.written =
      h.conn.line.written ++ (op.emission h.conn.format).bytes := by
  obtain ⟨hcheck, hcount⟩ := not_or.mp hop
  have hpath := Classical.not_not.mp hcheck
  have hc : h.conn.OpenIn h.conn.format := ⟨hopen, rfl⟩
  cases op with
  | call path args =>
    have hfits := Classical.not_not.mp hcount
    exact written_performAt hpath (call_leaves hc hserver h.settings path hfits) hafter
  | get path => exact written_performAt hpath (get_leaves hc hserver path) hafter
  | set path key value =>
    exact written_performAt hpath (set_leaves hc hserver path key value) hafter

/-- After an operation that leaves its handle open, the line is at the end of a request exactly when
the operation was refused beforehand or could be encoded. Then nothing was sent, or one frame that
the server reads to its end as this operation. -/
theorem boundary_iff (h : Handle) (op : Operation) (hformat : h.conn.format.isSupported = true)
    (hopen : h.isOpen = true) (hserver : Consents h.conn) (hafter : (h.after op).isOpen = true) :
    ∃ sent, (h.after op).conn.line.written = h.conn.line.written ++ sent ∧
      ((sent = [] ∨ ∃ F : Frame h.conn.format, F.bytes = sent) ↔
        (op.Refused h.settings.maxNameLength ∨ (op.emission h.conn.format).failure = none)) ∧
      ((op.Refused h.settings.maxNameLength ∨ (op.emission h.conn.format).failure = none) →
        sent = [] ∨ ∃ F : Frame h.conn.format, F.bytes = sent ∧
          F.reading = .done (op.received h.conn.format)) := by
  by_cases hop : op.Refused h.settings.maxNameLength
  · refine ⟨[], ?_, ?_, fun _ => .inl rfl⟩
    · rw [written_after_of_refused hop, List.append_nil]
    · exact iff_of_true (.inl rfl) (.inl hop)
  · have hcount : op.Countable := Classical.not_not.mp (not_or.mp hop).2
    refine ⟨_, written_after hop hopen hserver hafter, ?_⟩
    cases hfailure : (op.emission h.conn.format).failure with
    | none =>
      obtain ⟨F, hF⟩ := Frame.operation_begins hformat op hcount
      obtain ⟨hbytes, hreading⟩ := hF.of_none hfailure
      refine ⟨?_, fun _ => .inr ⟨F, hbytes.symm, hreading⟩⟩
      exact iff_of_true (.inr ⟨F, hbytes.symm⟩) (.inr rfl)
    | some e =>
      have hlost : ¬ (op.Refused h.settings.maxNameLength ∨ some e = none) := by
        rintro (hrefused | hnone)
        · exact hop hrefused
        · exact nomatch hnone
      refine ⟨?_, fun hcond => absurd hcond hlost⟩
      exact iff_of_false (Frame.not_boundary_of_failure hformat hcount hfailure) hlost

/-- A handle whose server has consented to the next request and answered with these bytes. -/
def answered (reply : List UInt8) : Handle :=
  { conn := .ofLine (.ofBytes (Status.ready.toByte :: reply)) .host, settings := {} }

/-- A server that only says it is ready consents to the next request. -/
theorem consents_answered (reply : List UInt8) : Consents (answered reply).conn := by
  intro b later h
  cases h
  rfl

/-- A read that is answered sends one frame. -/
theorem boundary_iff_answered :
    ((answered [0]).after (.get ⟨["f"]⟩)).isOpen = true ∧
    ∃ sent, ((answered [0]).after (.get ⟨["f"]⟩)).conn.line.written = sent ∧
      (sent = [] ∨ ∃ F : Frame .host, F.bytes = sent) := by
  have hopen : ((answered [0]).after (.get ⟨["f"]⟩)).isOpen = true := by decide +kernel
  have hsent : ((Operation.get ⟨["f"]⟩).emission .host).failure = none := by decide +kernel
  obtain ⟨sent, hwritten, hiff, -⟩ :=
    boundary_iff (answered [0]) (.get ⟨["f"]⟩) (by decide) rfl (consents_answered [0]) hopen
  exact ⟨hopen, sent, hwritten, hiff.mpr (.inr hsent)⟩

/-- A value nested too deeply is refused when the command, the path and the key are gone: the
assignment fails, its handle stays open, and what it has sent is no request. -/
theorem boundary_lost :
    Consents (answered []).conn ∧
    (setPath ⟨["f"]⟩ (.ofText "k") (.nested 65) (answered [])).1.isOk = false ∧
    (setPath ⟨["f"]⟩ (.ofText "k") (.nested 65) (answered [])).2.isOpen = true ∧
    ¬ ((setPath ⟨["f"]⟩ (.ofText "k") (.nested 65) (answered [])).2.conn.line.written = [] ∨
      ∃ F : Frame .host, F.bytes =
        (setPath ⟨["f"]⟩ (.ofText "k") (.nested 65) (answered [])).2.conn.line.written) := by
  have hwritten :
      (setPath ⟨["f"]⟩ (.ofText "k") (.nested 65) (answered [])).2.conn.line.written =
        ((Operation.set ⟨["f"]⟩ (.ofText "k") (.nested 65)).emission .host).bytes := by
    decide +kernel
  have hfailure :
      ((Operation.set ⟨["f"]⟩ (.ofText "k") (.nested 65)).emission .host).failure =
        some (.protocol .tooDeep) := by
    decide +kernel
  refine ⟨consents_answered [], by decide +kernel, by decide +kernel, ?_⟩
  rw [hwritten]
  exact Frame.not_boundary_of_failure (by decide) trivial hfailure

end Handle

end RemoteCall
