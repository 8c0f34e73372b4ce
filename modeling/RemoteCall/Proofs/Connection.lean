import RemoteCall.Connection
import RemoteCall.Proofs.Line.Reading

/-!
# Running sessions

On an open connection a step of a session is a step of its reader, its emission or its line, and
nothing else of the connection changes. What a step leaves as it was is said by a view of the
connection that it keeps; sequences keep what their parts keep, whether they fail or not.
-/

namespace RemoteCall

namespace Connection

/-- The connection with other input. -/
def withInput (c : Connection) (input : Inbound) : Connection :=
  { c with line := { c.line with inbound := input } }

/-- The line is open and this format is in effect. -/
structure OpenIn (f : Format) (c : Connection) : Prop where
  isOpen : c.isOpen = true
  format_eq : c.format = f

/-- What sending does not touch. -/
def incoming (c : Connection) : Bool × Format × Format × Intake × Inbound :=
  (c.isOpen, c.native, c.format, c.line.intake, c.line.inbound)

/-- What reading does not touch. -/
def outgoing (c : Connection) : Bool × Format × Format × List Sent × Intake :=
  (c.isOpen, c.native, c.format, c.line.outbound, c.line.intake)

/-- What no exchange of a request touches: whether the line is open, and both formats. -/
def standing (c : Connection) : Bool × Format × Format := (c.isOpen, c.native, c.format)

/-- What neither sending nor reading touches, the time limits set so far included. -/
def steady (c : Connection) : (Bool × Format × Format) × List (Option Duration) :=
  (c.standing, c.line.timeouts)

/-- The connection of a server with this format of its own, on a line that takes everything, while
that format is in effect. -/
structure Serves (own f : Format) (c : Connection) : Prop where
  openIn : c.OpenIn f
  native_eq : c.native = own
  free : c.line.intake = .free

variable {c c' : Connection} {own f : Format}

/-- A connection stays open in its format under what sending does not touch. -/
theorem OpenIn.of_incoming (hc : c.OpenIn f) (h : c'.incoming = c.incoming) : c'.OpenIn f := by
  simp only [incoming, Prod.mk.injEq] at h
  exact ⟨h.1.trans hc.isOpen, h.2.2.1.trans hc.format_eq⟩

/-- Other input changes neither the line nor the format. -/
theorem OpenIn.withInput (hc : c.OpenIn f) (input : Inbound) : (c.withInput input).OpenIn f :=
  ⟨hc.isOpen, hc.format_eq⟩

/-- The connection of a server stays one under what sending does not touch. -/
theorem Serves.of_incoming (hc : c.Serves own f) (h : c'.incoming = c.incoming) :
    c'.Serves own f := by
  refine ⟨hc.openIn.of_incoming h, ?_, ?_⟩
  · simp only [incoming, Prod.mk.injEq] at h
    exact h.2.1.trans hc.native_eq
  · simp only [incoming, Prod.mk.injEq] at h
    exact h.2.2.2.1.trans hc.free

/-- The connection of a server stays one with other input. -/
theorem Serves.withInput (hc : c.Serves own f) (input : Inbound) :
    (c.withInput input).Serves own f :=
  ⟨hc.openIn.withInput input, hc.native_eq, hc.free⟩

/-- What reading does not touch includes all that was written. -/
theorem written_of_outgoing (h : c'.outgoing = c.outgoing) : c'.line.written = c.line.written := by
  simp only [outgoing, Prod.mk.injEq] at h
  rw [Line.written, h.2.2.2.1, Line.written]

/-- What reading does not touch includes how the line takes what is written. -/
theorem intake_of_outgoing (h : c'.outgoing = c.outgoing) : c'.line.intake = c.line.intake := by
  simp only [outgoing, Prod.mk.injEq] at h
  exact h.2.2.2.2

/-- What sending does not touch includes what no exchange of a request touches. -/
theorem standing_of_incoming (h : c'.incoming = c.incoming) : c'.standing = c.standing := by
  simp only [incoming, Prod.mk.injEq] at h
  simp only [standing, h.1, h.2.1, h.2.2.1]

/-- What reading does not touch includes what no exchange of a request touches. -/
theorem standing_of_outgoing (h : c'.outgoing = c.outgoing) : c'.standing = c.standing := by
  simp only [outgoing, Prod.mk.injEq] at h
  simp only [standing, h.1, h.2.1, h.2.2.1]

/-- A connection stays open in its format while its line and its formats stay. -/
theorem OpenIn.of_standing (hc : c.OpenIn f) (h : c'.standing = c.standing) : c'.OpenIn f := by
  simp only [standing, Prod.mk.injEq] at h
  exact ⟨h.1.trans hc.isOpen, h.2.2.trans hc.format_eq⟩

/-- What sending does not touch includes the input. -/
theorem inbound_of_incoming (h : c'.incoming = c.incoming) :
    c'.line.inbound = c.line.inbound := by
  simp only [incoming, Prod.mk.injEq] at h
  exact h.2.2.2.2

/-- What sending does not touch includes how the line takes what is written. -/
theorem intake_of_incoming (h : c'.incoming = c.incoming) :
    c'.line.intake = c.line.intake := by
  simp only [incoming, Prod.mk.injEq] at h
  exact h.2.2.2.1

end Connection

namespace Line

variable {l : Line}

/-- Recording bytes adds them to what was written. -/
@[simp] theorem written_record (l : Line) (bytes : List UInt8) :
    (l.record bytes).written = l.written ++ bytes := by
  unfold record
  split
  · rename_i h
    rw [List.isEmpty_iff.mp h, List.append_nil]
  · simp [written, Sent.payload]

/-- Recording bytes changes nothing but the output. -/
theorem record_eq (l : Line) (bytes : List UInt8) :
    ∃ outbound, l.record bytes = { l with outbound := outbound } := by
  unfold record
  split
  · exact ⟨l.outbound, rfl⟩
  · exact ⟨_, rfl⟩

@[simp] theorem inbound_record (l : Line) (bytes : List UInt8) :
    (l.record bytes).inbound = l.inbound := by
  obtain ⟨outbound, h⟩ := l.record_eq bytes
  rw [h]

@[simp] theorem intake_record (l : Line) (bytes : List UInt8) :
    (l.record bytes).intake = l.intake := by
  obtain ⟨outbound, h⟩ := l.record_eq bytes
  rw [h]

@[simp] theorem isOpen_record (l : Line) (bytes : List UInt8) :
    (l.record bytes).isOpen = l.isOpen := by
  obtain ⟨outbound, h⟩ := l.record_eq bytes
  rw [h]

/-- The input plays no part in recording. -/
theorem record_withInput (l : Line) (input : Inbound) (bytes : List UInt8) :
    { l with inbound := input }.record bytes = { l.record bytes with inbound := input } := by
  unfold record
  split <;> rfl

/-- However often an attempt is repeated, nothing changes but the output. -/
theorem deliver_eq (l : Line) (bytes : List UInt8) (failures : List (Nat × IoError)) :
    ∃ outbound, (l.deliver bytes failures).2 = { l with outbound := outbound } := by
  induction failures generalizing l bytes with
  | nil => exact l.record_eq bytes
  | cons failure later ih =>
    rw [deliver]
    obtain ⟨part, hpart⟩ := l.record_eq (bytes.take failure.1)
    split
    · exact l.record_eq bytes
    · split
      · rw [hpart]
        exact ih { l with outbound := part } (bytes.drop failure.1)
      · rw [hpart]
        exact ⟨part ++ [.refused failure.2], rfl⟩

/-- A piece goes out as a whole, or sending it fails with a failure of the line. -/
theorem deliver_cases (l : Line) (bytes : List UInt8) (failures : List (Nat × IoError)) :
    (l.deliver bytes failures).1 = .ok () ∧
        (l.deliver bytes failures).2.written = l.written ++ bytes ∨
      ∃ e, (l.deliver bytes failures).1 = .error (.ofIo e) := by
  induction failures generalizing l bytes with
  | nil => exact .inl ⟨rfl, l.written_record bytes⟩
  | cons failure later ih =>
    rw [deliver]
    split
    · exact .inl ⟨rfl, l.written_record bytes⟩
    · split
      · -- what is left goes behind what went out before the interruption
        rcases ih (l.record (bytes.take failure.1)) (bytes.drop failure.1) with
          ⟨hok, hwritten⟩ | hfails
        · refine .inl ⟨hok, ?_⟩
          rw [hwritten, written_record, List.append_assoc, List.take_append_drop]
        · exact .inr hfails
      · exact .inr ⟨failure.2, rfl⟩

/-- A piece that meets nothing but interruptions goes out as a whole. -/
theorem deliver_of_interrupted (l : Line) (bytes : List UInt8) {failures : List (Nat × IoError)}
    (h : ∀ failure ∈ failures, failure.2.kind = .interrupted) :
    (l.deliver bytes failures).1 = .ok () := by
  induction failures generalizing l bytes with
  | nil => rfl
  | cons failure later ih =>
    obtain ⟨hfirst, hlater⟩ := List.forall_mem_cons.mp h
    rw [deliver, if_pos hfirst]
    split
    · rfl
    · exact ih _ _ hlater

/-- The input plays no part in sending a piece. -/
theorem deliver_withInput (l : Line) (input : Inbound) (bytes : List UInt8)
    (failures : List (Nat × IoError)) :
    { l with inbound := input }.deliver bytes failures =
      ((l.deliver bytes failures).1, { (l.deliver bytes failures).2 with inbound := input }) := by
  induction failures generalizing l bytes with
  | nil => exact Prod.ext rfl (l.record_withInput input bytes)
  | cons failure later ih =>
    rw [deliver, deliver, l.record_withInput input bytes,
      l.record_withInput input (bytes.take failure.1)]
    split
    · rfl
    · split
      · exact ih (l.record (bytes.take failure.1)) (bytes.drop failure.1)
      · rfl

/-- Sending changes nothing but the output. -/
theorem write_eq (l : Line) (bytes : List UInt8) :
    ∃ outbound, (l.write bytes).2 = { l with outbound := outbound } := by
  unfold write
  split
  · exact ⟨l.outbound, rfl⟩
  · exact l.deliver_eq bytes _

/-- Sending leaves the input and the state of the line. -/
theorem write_keeps (l : Line) (bytes : List UInt8) :
    (l.write bytes).2.inbound = l.inbound ∧ (l.write bytes).2.isOpen = l.isOpen ∧
      (l.write bytes).2.intake = l.intake := by
  obtain ⟨outbound, h⟩ := l.write_eq bytes
  rw [h]
  exact ⟨rfl, rfl, rfl⟩

/-- A line takes all of a piece, or it fails with a failure of the line. -/
theorem write_cases (l : Line) (bytes : List UInt8) :
    (l.write bytes).1 = .ok () ∧ (l.write bytes).2.written = l.written ++ bytes ∨
      ∃ e, (l.write bytes).1 = .error (.ofIo e) := by
  unfold write
  split
  · rename_i h
    left
    rw [List.isEmpty_iff.mp h, List.append_nil]
    exact ⟨rfl, rfl⟩
  · exact l.deliver_cases bytes _

/-- Pushing leaves the input and the state of the line. -/
theorem flush_keeps (l : Line) :
    l.flush.2.inbound = l.inbound ∧ l.flush.2.isOpen = l.isOpen ∧
      l.flush.2.intake = l.intake := by
  unfold flush
  split <;> exact ⟨rfl, rfl, rfl⟩

/-- Sending sets no time limit. -/
theorem timeouts_write (l : Line) (bytes : List UInt8) :
    (l.write bytes).2.timeouts = l.timeouts := by
  obtain ⟨outbound, h⟩ := l.write_eq bytes
  rw [h]

/-- Pushing sets no time limit. -/
theorem timeouts_flush (l : Line) : l.flush.2.timeouts = l.timeouts := by
  unfold flush
  split <;> rfl

/-- The input plays no part in sending. -/
theorem write_withInput (l : Line) (input : Inbound) (bytes : List UInt8) :
    { l with inbound := input }.write bytes =
      ((l.write bytes).1, { (l.write bytes).2 with inbound := input }) := by
  unfold write
  split
  · rfl
  · exact l.deliver_withInput input bytes _

/-- The input plays no part in pushing. -/
theorem flush_withInput (l : Line) (input : Inbound) :
    { l with inbound := input }.flush = (l.flush.1, { l.flush.2 with inbound := input }) := by
  unfold flush
  dsimp only
  split <;> rfl

/-- A push succeeds without a byte, or it fails with a failure of the line. -/
theorem flush_cases (l : Line) :
    l.flush.1 = .ok () ∧ l.flush.2.written = l.written ∨ ∃ e, l.flush.1 = .error (.ofIo e) := by
  unfold flush
  split
  · exact .inl ⟨rfl, by simp [written, Sent.payload]⟩
  · exact .inr ⟨_, rfl⟩

/-- A push that succeeds stands at the end of the output. -/
theorem outbound_of_flush (hok : l.flush.1 = .ok ()) :
    l.flush.2.outbound = l.outbound ++ [.flush] := by
  unfold flush at hok ⊢
  split at hok
  · rfl
  · exact nomatch hok

/-- A line that refuses nothing takes everything. -/
theorem write_of_free (h : l.intake = .free) (bytes : List UInt8) :
    l.write bytes = (.ok (), l.record bytes) := by
  unfold write
  split
  · rename_i hempty
    rw [record, if_pos hempty]
  · rw [h]
    rfl

/-- A line that refuses nothing can always be pushed. -/
theorem flush_of_free (h : l.intake = .free) :
    l.flush = (.ok (), { l with outbound := l.outbound ++ [.flush] }) := by
  rw [flush, h]
  rfl

end Line

namespace Session

open Connection

variable {α β γ : Type} {c : Connection} {x : Session α} {k : α → Session β}
  {view : Connection → γ}

/-- An open connection passes the check. -/
theorem requireOpen_run (h : c.isOpen = true) : requireOpen c = (.ok (), c) := by
  rw [requireOpen, bind_of_ok get_run, h]
  rfl

/-- A closed connection is refused as it is. -/
theorem requireOpen_run_closed (h : c.isOpen = false) : requireOpen c = (.error .closed, c) := by
  rw [requireOpen, bind_of_ok get_run, h]
  rfl

/-- Receiving runs the reader on the input. -/
theorem receive_run (h : c.isOpen = true) (reader : Format → Reader α) :
    receive reader c = ((reader c.format c.line.inbound).1,
      c.withInput (reader c.format c.line.inbound).2) := by
  rw [receive, bind_of_ok (requireOpen_run h)]
  rfl

/-- Only an open connection receives anything. -/
theorem isOpen_of_receive {reader : Format → Reader α} {d : Connection} {a : α}
    (hrun : receive reader c = (.ok a, d)) : c.isOpen = true := by
  cases hopen : c.isOpen with
  | true => rfl
  | false =>
    have hclosed : receive reader c = (.error .closed, c) :=
      bind_of_error (requireOpen_run_closed hopen)
    exact nomatch (congrArg Prod.fst hrun).symm.trans (congrArg Prod.fst hclosed)

/-- Receiving follows its reader. -/
theorem receive_follows (reader : Format → Reader α) {bytes rest : List UInt8} {r : Reading α}
    {after : List Arrival} (h : c.isOpen = true) (hreader : (reader c.format).Follows bytes r)
    (hin : c.line.inbound.Brings (bytes ++ rest) after) :
    ∃ later, receive reader c = (r.result, c.withInput later) ∧
      later.Brings (r.left ++ rest) after := by
  obtain ⟨later, hrun, hlater⟩ := hreader c.line.inbound rest after hin
  refine ⟨later, ?_, hlater⟩
  rw [receive_run h, hrun]

/-- The outcome of sending: a failure of the line, or that of the emission. -/
def sendResult (written : Except Error Unit) (failure : Option Error) : Except Error Unit :=
  match written, failure with
  | .ok (), some e => .error e
  | result, _ => result

/-- Sending writes the bytes of the emission. -/
theorem send_run (h : c.isOpen = true) (emission : Format → Emission) :
    send emission c =
      (sendResult (c.line.write (emission c.format).bytes).1 (emission c.format).failure,
        { c with line := (c.line.write (emission c.format).bytes).2 }) := by
  rw [send, bind_of_ok (requireOpen_run h)]
  rfl

/-- On an open connection flushing is flushing the line. -/
theorem flush_run (h : c.isOpen = true) :
    flush c = (c.line.flush.1, { c with line := c.line.flush.2 }) := by
  rw [flush, bind_of_ok (requireOpen_run h)]

/-- On an open connection setting a time limit is setting that of the line. -/
theorem setTimeout_run (h : c.isOpen = true) (timeout : Option Duration) :
    setTimeout timeout c = (.ok (), { c with line := c.line.setTimeout timeout }) := by
  rw [setTimeout, bind_of_ok (requireOpen_run h)]
  rfl

/-- The session leaves this view of the connection as it was. -/
def Keeps (view : Connection → γ) (x : Session α) : Prop := ∀ c, view (x c).2 = view c

/-- Giving a value keeps every view. -/
theorem keeps_pure (a : α) : Keeps view (pure a) := fun _ => rfl

/-- Failing keeps every view. -/
theorem keeps_throw (e : Error) : Keeps view (throw e : Session α) := fun _ => rfl

/-- A settled result keeps every view. -/
theorem keeps_ofExcept (r : Except Error α) :
    Keeps view (MonadExcept.ofExcept r : Session α) := by
  cases r with
  | ok a => exact keeps_pure a
  | error e => exact keeps_throw e

/-- A sequence keeps what its parts keep. -/
theorem Keeps.bind (hx : Keeps view x) (hk : ∀ a, Keeps view (k a)) : Keeps view (x >>= k) := by
  intro c
  cases hrun : x c with
  | mk result later =>
    have hlater : view later = view c := by
      have h := hx c
      rwa [hrun] at h
    cases result with
    | ok a => rw [bind_of_ok hrun, hk a later, hlater]
    | error e => rw [bind_of_error hrun, hlater]

/-- Taking note of a failure keeps what the session keeps. -/
theorem Keeps.observing (hx : Keeps view x) : Keeps view (observing x) := by
  intro c
  rw [observing_run]
  exact hx c

/-- An open connection is all that matters for keeping a view, since a closed one is left alone. -/
theorem keeps_requireOpen_bind {y : Session α}
    (h : ∀ c, c.isOpen = true → view (y c).2 = view c) :
    Keeps view (requireOpen >>= fun _ => y) := by
  intro c
  cases hopen : c.isOpen with
  | true =>
    rw [bind_of_ok (requireOpen_run hopen)]
    exact h c hopen
  | false => rw [bind_of_error (requireOpen_run_closed hopen)]

/-- The session neither looks at the input nor changes it. -/
def Blind (x : Session α) : Prop :=
  ∀ c input, x (c.withInput input) = ((x c).1, (x c).2.withInput input)

/-- Sessions that are blind one after the other are blind. -/
theorem Blind.bind (hx : Blind x) (hk : ∀ a, Blind (k a)) : Blind (x >>= k) := by
  intro c input
  have h := hx c input
  cases hrun : x c with
  | mk result later =>
    rw [hrun] at h
    cases result with
    | ok a => rw [bind_of_ok h, bind_of_ok hrun, hk a later input]
    | error e => rw [bind_of_error h, bind_of_error hrun]

/-- An open connection is all that matters for being blind, since a closed one is left alone. -/
theorem blind_requireOpen_bind {y : Session α}
    (h : ∀ c input, c.isOpen = true → y (c.withInput input) = ((y c).1, (y c).2.withInput input)) :
    Blind (requireOpen >>= fun _ => y) := by
  intro c input
  cases hopen : c.isOpen with
  | true =>
    have hopen' : (c.withInput input).isOpen = true := hopen
    rw [bind_of_ok (requireOpen_run hopen), bind_of_ok (requireOpen_run hopen')]
    exact h c input hopen
  | false =>
    have hopen' : (c.withInput input).isOpen = false := hopen
    rw [bind_of_error (requireOpen_run_closed hopen),
      bind_of_error (requireOpen_run_closed hopen')]

/-- Sending neither looks at the input nor changes it. -/
theorem send_blind (emission : Format → Emission) : Blind (send emission) :=
  blind_requireOpen_bind fun c input _ => by
    have h := c.line.write_withInput input (emission c.format).bytes
    simp only [withInput, h]

/-- Flushing neither looks at the input nor changes it. -/
theorem flush_blind : Blind flush :=
  blind_requireOpen_bind fun c input _ => by
    have h := c.line.flush_withInput input
    simp only [withInput, h]

/-- Receiving sends nothing. -/
theorem receive_keeps (reader : Format → Reader α) : Keeps outgoing (receive reader) :=
  keeps_requireOpen_bind fun _ _ => rfl

/-- Setting a time limit sends nothing. -/
theorem setTimeout_keeps_outgoing (timeout : Option Duration) :
    Keeps outgoing (setTimeout timeout) :=
  keeps_requireOpen_bind fun _ _ => rfl

/-- Receiving opens and closes nothing and sets no time limit. -/
theorem receive_keeps_steady (reader : Format → Reader α) : Keeps steady (receive reader) :=
  keeps_requireOpen_bind fun _ _ => rfl

/-- Sending opens and closes nothing and sets no time limit. -/
theorem send_keeps_steady (emission : Format → Emission) : Keeps steady (send emission) :=
  keeps_requireOpen_bind fun c _ => by
    simp only [steady, standing, Connection.isOpen,
      (c.line.write_keeps (emission c.format).bytes).2.1, c.line.timeouts_write]

/-- Flushing opens and closes nothing and sets no time limit. -/
theorem flush_keeps_steady : Keeps steady flush :=
  keeps_requireOpen_bind fun c _ => by
    simp only [steady, standing, Connection.isOpen, c.line.flush_keeps.2.1, c.line.timeouts_flush]

/-- Sending leaves the input as it is. -/
theorem send_keeps (emission : Format → Emission) : Keeps incoming (send emission) :=
  keeps_requireOpen_bind fun c _ => by
    have h := c.line.write_keeps (emission c.format).bytes
    simp only [incoming, Connection.isOpen, h.1, h.2.1, h.2.2]

/-- Flushing leaves the input as it is. -/
theorem flush_keeps : Keeps incoming flush :=
  keeps_requireOpen_bind fun c _ => by
    have h := c.line.flush_keeps
    simp only [incoming, Connection.isOpen, h.1, h.2.1, h.2.2]

end Session

end RemoteCall
