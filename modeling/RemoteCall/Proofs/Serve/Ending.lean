import RemoteCall.Proofs.Serve.Accepted
import RemoteCall.Proofs.Serve.Flow
import RemoteCall.Proofs.Wire.Ending

/-!
# Serving comes to an end

Both loops of a server start over after some failures, and what bounds them is not part of what they
are for. But a pass after which they go on has taken bytes or failed reads off the line, and never
the end of the stream, so they stop of themselves before any bound on their passes is reached. Then
the peer has hung up where a command was due, or the loop has met the first failure that it does not
go on after. The output bounds nothing: what is written may go out, be interrupted and repeated, be
cut short or fail, as long as each write returns, which is also asked of the operations of the host.
-/

namespace RemoteCall

variable {σ α : Type}

/-- Between the two, bytes and failed reads were taken off the line: at least one of them, and not
the end of the stream. -/
def Connection.Spends (before after : Connection) : Prop :=
  ∃ taken, taken ≠ [] ∧ Find.ending ∉ taken ∧
    before.line.inbound.flow = taken ++ after.line.inbound.flow

/-- What was taken off a line is no longer there. -/
theorem Connection.Spends.pending_lt {before after : Connection} (h : before.Spends after) :
    after.pending < before.pending := by
  obtain ⟨taken, hne, -, hflow⟩ := h
  have hpos := List.length_pos_iff.mpr hne
  rw [pending, pending, hflow, List.length_append]
  omega

namespace Session

open Connection

variable {c d : Connection}

/-- The session takes the beginning of the flow. -/
abbrev Takes (x : Session α) : Prop :=
  RemoteCall.Takes (fun c : Connection => c.line.inbound.flow) x

/-- Asking for an open connection takes nothing. -/
theorem takes_requireOpen : Takes requireOpen := by
  refine takes_get_bind fun c => ?_
  cases c.isOpen with
  | true => exact takes_pure _
  | false => exact takes_throw nofun

/-- Receiving takes what its reader takes. -/
theorem takes_receive {reader : Format → Reader α}
    (hreader : ∀ f, RemoteCall.Takes Inbound.flow (reader f)) : Takes (receive reader) :=
  takes_requireOpen.bind fun _ =>
    ⟨fun c => (hreader c.format).beginning c.line.inbound,
      fun c => (hreader c.format).stays c.line.inbound⟩

/-- Sending takes nothing. -/
theorem takes_send {emission : Format → Emission} (hmild : ∀ f, (emission f).Mild) :
    Takes (send emission) := by
  refine takes_requireOpen.bind fun _ => Takes.of_view_eq (fun c => ?_) fun c e he => ?_
  · exact congrArg Inbound.flow (c.line.write_keeps (emission c.format).bytes).1
  · change sendResult (c.line.write (emission c.format).bytes).1 (emission c.format).failure =
      .error e at he
    rcases c.line.write_cases (emission c.format).bytes with ⟨hok, -⟩ | ⟨e', he'⟩
    · rw [hok] at he
      cases hfailure : (emission c.format).failure with
      | none =>
        rw [hfailure] at he
        exact nomatch he
      | some e' =>
        rw [hfailure] at he
        cases he
        rw [(hmild c.format).nonFatal hfailure]
        exact nofun
    · rw [he'] at he
      cases he
      exact Error.severity_ofIo_ne_done e'

/-- Flushing takes nothing. -/
theorem takes_flush : Takes flush := by
  refine takes_requireOpen.bind fun _ => Takes.of_view_eq (fun c => ?_) fun c e he => ?_
  · exact congrArg Inbound.flow c.line.flush_keeps.1
  · change c.line.flush.1 = .error e at he
    rcases c.line.flush_cases with ⟨hok, -⟩ | ⟨e', he'⟩
    · exact nomatch hok.symm.trans he
    · cases he'.symm.trans he
      exact Error.severity_ofIo_ne_done e'

/-- Settling on a format takes nothing. -/
theorem takes_settle (agreed : Format) : Takes (settle agreed) := by
  have hadopt : Takes (adopt agreed) := by
    refine .of_view_eq (fun _ => rfl) ?_
    rintro c e ⟨⟩
  exact (takes_send fun _ => Emission.mild_ofBytes _).bind fun _ => takes_flush.bind fun _ => hadopt

/-- A server's handshake takes the beginning of the flow. -/
theorem takes_negotiateServer : Takes negotiateServer := by
  refine (takes_receive fun _ => Reader.takes_take headerLength).bind fun bytes => ?_
  have hsettle : ∀ peer : Header, Takes (get >>= fun c => settle (c.native.reconcile peer)) :=
    fun peer => takes_get_bind fun c => takes_settle _
  cases hheader : Header.decode bytes with
  | error e =>
    obtain ⟨fault, rfl⟩ := Header.exists_fault_of_decode hheader
    have hrefuse : Takes (throw (.header fault) : Session Header) := takes_throw nofun
    exact hrefuse.bind hsettle
  | ok peer => exact (takes_pure peer).bind hsettle

/-- A command is due at the end of the stream: a read finds nothing. -/
def HungUp (c : Connection) : Prop :=
  c.isOpen = true ∧ (Inbound.next c.line.inbound).1 = .ok none

/-- Reading a command takes a byte or a failed read off the line, or the line is closed, or the peer
has hung up. -/
theorem readCommand_cases (c : Connection) :
    (∃ b d, readCommand c = (.ok b, d) ∧
      c.line.inbound.flow = .byte b :: d.line.inbound.flow) ∨
    (∃ e d, readCommand c = (.error (.ofIo e), d) ∧
      c.line.inbound.flow = .fault e :: d.line.inbound.flow) ∨
    readCommand c = (.error .closed, c) ∨
    HungUp c ∧ ∃ d, readCommand c = (.error .disconnected, d) := by
  cases hopen : c.isOpen with
  | false =>
    exact .inr (.inr (.inl (bind_of_error (bind_of_error (requireOpen_run_closed hopen)))))
  | true =>
    have hnext := Inbound.next_flow c.line.inbound
    have hreceive : receive (fun _ => Reader.byte?) c =
        ((Inbound.next c.line.inbound).1, c.withInput (Inbound.next c.line.inbound).2) :=
      receive_run hopen fun _ => Reader.byte?
    cases hread : Inbound.next c.line.inbound with
    | mk result input =>
      rw [hread] at hnext hreceive
      have hend : result = .ok none →
          HungUp c ∧ ∃ d, readCommand c = (.error .disconnected, d) := by
        rintro rfl
        exact ⟨⟨hopen, congrArg Prod.fst hread⟩, c.withInput input, bind_of_ok hreceive⟩
      cases hflow : c.line.inbound.flow with
      | nil =>
        rw [hflow] at hnext
        exact .inr (.inr (.inr (hend (congrArg Prod.fst hnext))))
      | cons found rest =>
        rw [hflow] at hnext
        obtain ⟨hresult, hleft⟩ := Prod.mk.inj hnext
        dsimp only at hresult hleft
        cases found with
        | ending => exact .inr (.inr (.inr (hend hresult)))
        | fault e =>
          subst hresult
          exact .inr (.inl ⟨e, _, bind_of_error hreceive, congrArg _ hleft.symm⟩)
        | byte b =>
          subst hresult
          exact .inl ⟨b, _, bind_of_ok hreceive, congrArg _ hleft.symm⟩

end Session

namespace Serving

open Session

variable {h : Host σ} {s t : Served σ}

/-- The computation takes the beginning of the flow. -/
abbrev Takes (x : Serving σ α) : Prop :=
  RemoteCall.Takes (fun s : Served σ => s.conn.line.inbound.flow) x

/-- A session inside the server takes what it takes on its connection. -/
theorem takes_onConn {x : Session α} (hx : Session.Takes x) : Takes (onConn x : Serving σ α) :=
  ⟨fun s => hx.beginning s.conn, fun s => hx.stays s.conn⟩

/-- Behind its command byte a request takes the beginning of the flow, for everything that it is put
together from does. -/
theorem closed_takes : Closed (σ := σ) Takes where
  result := takes_pure
  violation _ := takes_throw nofun
  command _ := takes_throw nofun
  host _ := .of_view_eq (fun _ => rfl) fun _ _ he => nomatch he
  string := takes_onConn (takes_receive Reader.closed_takes.string)
  word := takes_onConn (takes_receive Reader.closed_takes.word)
  value := takes_onConn (takes_receive Reader.takes_value)
  send hmild := takes_onConn (takes_send hmild)
  flush := takes_onConn takes_flush
  negotiate := takes_onConn takes_negotiateServer
  seq hx hk := hx.bind hk

/-- A round after which the loop goes on has taken something off the line. -/
theorem spends_of_advance (hadvance : advance h s = some t) : s.conn.Spends t.conn := by
  have hstop := mt (advance_eq_none_iff (h := h) (s := s)).mpr (by rw [hadvance]; nofun)
  have hgoes : ∀ {e}, (serveOne h s).1 = .error e → e.severity = .nonFatal := fun he =>
    Classical.not_not.mp fun hne => hstop ⟨_, he, hne⟩
  rw [← eq_of_advance hadvance]
  rw [serveOne_eq] at hgoes ⊢
  obtain ⟨b, d, hread, hflow⟩ | ⟨e, d, hread, hflow⟩ | hread | ⟨-, d, hread⟩ :=
    readCommand_cases s.conn
  · rw [bind_of_ok (onConn_of_run hread)] at hgoes ⊢
    obtain ⟨taken, htaken, hend⟩ := (closed_takes.serveCommand h b).beginning ⟨d, s.host⟩
    refine ⟨.byte b :: taken, List.cons_ne_nil _ _, ?_, ?_⟩
    · intro hmem
      rcases List.mem_cons.mp hmem with hmem | hmem
      · exact nomatch hmem
      · obtain ⟨e, he, hfatal⟩ := hend hmem
        exact nomatch hfatal.symm.trans (hgoes he)
    · rw [hflow, List.cons_append]
      exact congrArg _ htaken
  · rw [bind_of_error (onConn_of_run hread)]
    refine ⟨[.fault e], List.cons_ne_nil _ _, ?_, hflow⟩
    intro hmem
    exact nomatch List.mem_singleton.mp hmem
  · rw [bind_of_error (onConn_of_run hread)] at hgoes
    exact nomatch hgoes rfl
  · rw [bind_of_error (onConn_of_run hread)] at hgoes
    exact nomatch hgoes rfl

/-- Rounds use up what is on the line. -/
theorem pending_round? {n : Nat} (hround : round? h n s = some t) :
    t.conn.pending + n ≤ s.conn.pending := by
  induction n generalizing t with
  | zero =>
    cases hround
    exact Nat.le_refl _
  | succ n ih =>
    obtain ⟨u, hu, hadvance⟩ := Option.bind_eq_some_iff.mp hround
    have hless := (spends_of_advance hadvance).pending_lt
    have := ih hu
    omega

/-- The loop stops in some round, or it comes to any round. -/
theorem stops_or_round (h : Host σ) (s : Served σ) (n : Nat) :
    (∃ m < n, ∃ t, round? h m s = some t ∧ advance h t = none) ∨ ∃ t, round? h n s = some t := by
  induction n with
  | zero => exact .inr ⟨s, rfl⟩
  | succ n ih =>
    rcases ih with ⟨m, hm, hstop⟩ | ⟨t, ht⟩
    · exact .inl ⟨m, Nat.lt_succ_of_lt hm, hstop⟩
    · cases hadvance : advance h t with
      | none => exact .inl ⟨n, Nat.lt_succ_self n, t, ht, hadvance⟩
      | some u => exact .inr ⟨u, by rw [round?, ht, Option.bind_some, hadvance]⟩

/-- The loop comes to what the round does after which it does not go on. -/
theorem exists_round (h : Host σ) {rounds : Nat} (hrounds : s.conn.pending < rounds) :
    ∃ n t, round? h n s = some t ∧ advance h t = none ∧
      serveRequests h rounds s = (outcome (serveOne h t).1, (serveOne h t).2) := by
  rcases stops_or_round h s rounds with ⟨n, hn, t, hround, hstop⟩ | ⟨t, hround⟩
  · refine ⟨n, t, hround, hstop, ?_⟩
    obtain ⟨left, rfl⟩ : ∃ left, rounds = n + (left + 1) := ⟨rounds - n - 1, by omega⟩
    rw [serveRequests_of_round hround, serveRequests_of_stop hstop]
  · have := pending_round? hround
    omega

/-! ### Arguments -/

end Serving

end RemoteCall
