import RemoteCall.Proofs.Handshake
import RemoteCall.Proofs.Wire.Accepted

/-!
# Sessions on a flow

Of a connection only its flow can be told from what a session makes of it, and not how the input is
cut. Sending does not look at the input at all, and receiving runs a reader of the flow; so sessions
come to the same outcome on two connections with the same flow, and leave them with the same flow.
What reads a byte gets on with the flow, unless it fails for good.
-/

namespace RemoteCall

variable {α β : Type}

namespace Connection

/-- What can be told of a connection: its flow, and everything but the input. -/
def observed (c : Connection) : Flow × Connection := (c.line.inbound.flow, c.withInput ⟨[], []⟩)

/-- The connections differ in nothing but how their input is cut. -/
def Alike (c d : Connection) : Prop := c.observed = d.observed

/-- How much is found on the line. -/
def pending (c : Connection) : Nat := c.line.inbound.flow.length

variable {c d : Connection}

/-- Connections are alike that differ in inputs of the same flow only. -/
theorem alike_withInput (c : Connection) {i j : Inbound} (hflow : i.flow = j.flow) :
    (c.withInput i).Alike (c.withInput j) :=
  Prod.ext hflow rfl

/-- What the input plays no part in is the same of both. -/
theorem Alike.of_blind {p : Connection → β} (hp : ∀ c input, p (c.withInput input) = p c)
    (h : c.Alike d) : p c = p d := by
  have hrest : c.withInput ⟨[], []⟩ = d.withInput ⟨[], []⟩ := congrArg Prod.snd h
  rw [← hp c ⟨[], []⟩, hrest, hp d ⟨[], []⟩]

end Connection

/-! ### Sessions -/

namespace Session

open Connection

variable {x : Session α}

/-- What the session comes to is a matter of what can be told of the connection. -/
abbrev Respects (x : Session α) : Prop :=
  RemoteCall.Respects observed (fun seen => seen.1.length) x

/-- Whoever is blind reads the flow alone. -/
theorem Blind.respects (hx : Blind x) : Respects x := by
  have hsplit : ∀ c : Connection, x c =
      ((x (c.withInput ⟨[], []⟩)).1, (x (c.withInput ⟨[], []⟩)).2.withInput c.line.inbound) :=
    fun c => hx (c.withInput ⟨[], []⟩) c.line.inbound
  constructor
  · intro c d hview
    obtain ⟨hflow, hrest⟩ := Prod.mk.inj hview
    rw [hsplit c, hsplit d, hrest]
    exact ⟨rfl, Prod.ext hflow rfl⟩
  · intro c
    rw [hsplit c]
    exact Nat.le_refl _

/-- Asking for an open connection reads the flow alone. -/
theorem respects_requireOpen : Respects requireOpen := by
  refine Blind.respects fun c input => ?_
  cases hopen : c.isOpen with
  | true => rw [requireOpen_run hopen, requireOpen_run (c := c.withInput input) hopen]
  | false =>
    rw [requireOpen_run_closed hopen, requireOpen_run_closed (c := c.withInput input) hopen]

/-- Receiving is as good as the reader. -/
theorem respects_receive {reader : Format → Reader α} (hreader : ∀ f, (reader f).Respects) :
    Respects (receive reader) := by
  refine respects_requireOpen.bind fun _ => ?_
  constructor
  · intro c d hview
    obtain ⟨hflow, hrest⟩ := Prod.mk.inj hview
    have hformat : c.format = d.format := Alike.of_blind (fun _ _ => rfl) hview
    have hsame : reader d.format = reader c.format := by rw [hformat]
    obtain ⟨hresult, hleft⟩ := (hreader c.format).alike _ _ hflow
    dsimp only
    rw [hsame]
    exact ⟨hresult, Prod.ext hleft hrest⟩
  · intro c
    exact (hreader c.format).shrinks c.line.inbound

/-- Sending reads the flow alone. -/
theorem respects_send (emission : Format → Emission) : Respects (send emission) :=
  (send_blind emission).respects

/-- Flushing reads the flow alone. -/
theorem respects_flush : Respects flush := flush_blind.respects

/-- Setting a time limit reads the flow alone. -/
theorem respects_setTimeout (timeout : Option Duration) : Respects (setTimeout timeout) := by
  refine Blind.respects (blind_requireOpen_bind fun c input _ => ?_)
  rfl

/-- Closing reads the flow alone. -/
theorem respects_close : Respects close := Blind.respects fun _ _ => rfl

/-- Adopting a format reads the flow alone. -/
theorem respects_adopt (f : Format) : Respects (adopt f) := Blind.respects fun _ _ => rfl

/-- Receiving a byte reads the flow alone. -/
theorem respects_readByte : Respects readByte := respects_receive fun _ => Reader.respects_byte

/-- Receiving a length reads the flow alone. -/
theorem respects_readWord : Respects readWord := respects_receive Reader.respects_word

/-- Receiving a string reads the flow alone. -/
theorem respects_readString : Respects readString := respects_receive Reader.respects_string

/-- Receiving a value reads the flow alone. -/
theorem respects_readValue : Respects readValue := respects_receive Reader.respects_value

/-- Receiving a command reads the flow alone. -/
theorem respects_readCommand : Respects readCommand := by
  refine (respects_receive fun _ => Reader.respects_next).bind fun first => ?_
  cases first with
  | some b => exact respects_pure b
  | none => exact respects_throw _

/-- What depends on the side's own format reads the flow alone if it does so in every format. -/
theorem respects_native_bind {k : Format → Session α} (hk : ∀ f, Respects (k f)) :
    Respects (get >>= fun c : Connection => k c.native) :=
  respects_get_bind (p := Connection.native)
    (fun _ _ hview => Alike.of_blind (fun _ _ => rfl) hview)
    hk

/-- A server's handshake reads the flow alone. -/
theorem respects_negotiateServer : Respects negotiateServer := by
  refine (respects_receive fun _ => Reader.respects_take headerLength).bind fun bytes => ?_
  refine (respects_ofExcept (Header.decode bytes)).bind fun peer => ?_
  refine respects_native_bind (k := fun own => settle (own.reconcile peer)) fun own => ?_
  exact (respects_send _).bind fun _ => respects_flush.bind fun _ => respects_adopt _

/-- Accepting a handshake reads the flow alone. -/
theorem respects_acceptHandshake : Respects acceptHandshake := by
  refine respects_readByte.bind fun first => ?_
  split
  · exact (respects_throw _).bind fun _ => respects_negotiateServer
  · exact respects_negotiateServer

/-- What a client does with the answer to its greeting reads the flow alone. -/
theorem respects_conclude (reply : List UInt8) : Respects (conclude reply) := by
  unfold conclude
  split
  · exact respects_adopt _
  · exact respects_close.bind fun _ => respects_throw _

/-- A client's handshake reads the flow alone. -/
theorem respects_negotiateClient : Respects negotiateClient := by
  refine respects_requireOpen.bind fun _ => ?_
  refine respects_native_bind (k := fun own => do
    send fun _ => .byte Command.connect.toByte
    send fun _ => .ofBytes (Header.ofFormat own).encode
    flush
    awaitHeader >>= conclude) fun own => ?_
  refine (respects_send _).bind fun _ => (respects_send _).bind fun _ => ?_
  refine respects_flush.bind fun _ => ?_
  exact (respects_receive fun _ => Reader.respects_take headerLength).bind respects_conclude

end Session

/-! ### Getting on -/

/-- The computation makes what it reads of the state smaller, unless it fails for good. -/
def Advances {τ γ : Type} (view : τ → γ) (size : γ → Nat) (x : ExceptT Error (StateM τ) α) : Prop :=
  ∀ s, size (view (x s).2) < size (view s) ∨ ∃ e, (x s).1 = .error e ∧ e.severity ≠ .nonFatal

/-- A computation gets on if its first step does. -/
theorem Advances.bind {τ γ : Type} {view : τ → γ} {size : γ → Nat}
    {x : ExceptT Error (StateM τ) α} {k : α → ExceptT Error (StateM τ) β}
    (hx : Advances view size x) (hk : ∀ a, Respects view size (k a)) :
    Advances view size (x >>= k) := by
  intro s
  have hfirst := hx s
  cases hs : x s with
  | mk result t =>
    rw [hs] at hfirst
    cases result with
    | ok a =>
      rw [bind_of_ok hs]
      rcases hfirst with hless | ⟨e, he, -⟩
      · exact .inl (Nat.lt_of_le_of_lt ((hk a).shrinks t) hless)
      · exact nomatch he
    | error e =>
      rw [bind_of_error hs]
      exact hfirst.imp_right fun ⟨e', he', hfinal⟩ => ⟨e', by cases he'; rfl, hfinal⟩

namespace Session

open Connection

/-- The session gets on with what is found on the line, unless it fails for good. -/
abbrev Advances (x : Session α) : Prop :=
  RemoteCall.Advances observed (fun seen => seen.1.length) x

/-- Receiving a byte gets on, for without a byte it fails for good. -/
theorem advances_readByte : Advances readByte := by
  have htake : RemoteCall.Advances Inbound.flow List.length (Reader.take 1) := by
    intro i
    have hfill : ((Reader.take 1 i).1, (Reader.take 1 i).2.flow) = Flow.take 1 i.flow :=
      Inbound.fill_flow 1 i
    obtain ⟨hresult, hleft⟩ := Prod.mk.inj hfill
    rcases Flow.take_cases 0 i.flow with hend | hless
    · exact .inr ⟨.eof, hresult.trans hend, nofun⟩
    · rw [← hleft] at hless
      exact .inl hless
  have hbyte : RemoteCall.Advances Inbound.flow List.length Reader.byte :=
    htake.bind fun _ => respects_pure _
  intro c
  cases hopen : c.isOpen with
  | true =>
    rw [readByte, receive_run hopen]
    exact hbyte c.line.inbound
  | false =>
    have hclosed : readByte c = (.error .closed, c) := bind_of_error (requireOpen_run_closed hopen)
    exact .inr ⟨.closed, congrArg Prod.fst hclosed, nofun⟩

/-- At the end of the stream the peer is gone, and there is no next request. -/
theorem advances_readCommand : Advances readCommand := by
  intro c
  cases hopen : c.isOpen with
  | true =>
    have hnext : ((Reader.byte? c.line.inbound).1, (Reader.byte? c.line.inbound).2.flow) =
        Flow.first c.line.inbound.flow := Inbound.next_flow c.line.inbound
    have hreceive := receive_run hopen fun _ => Reader.byte?
    cases hread : Reader.byte? c.line.inbound with
    | mk result input =>
      rw [hread] at hnext hreceive
      have hresult : result = (Flow.first c.line.inbound.flow).1 := congrArg Prod.fst hnext
      have hleft : input.flow = (Flow.first c.line.inbound.flow).2 := congrArg Prod.snd hnext
      rcases Flow.first_cases c.line.inbound.flow with hend | hless
      · have hnone : result = .ok none := hresult.trans hend
        rw [hnone] at hreceive
        rw [readCommand, bind_of_ok hreceive]
        exact .inr ⟨.disconnected, rfl, nofun⟩
      · rw [← hleft] at hless
        left
        cases result with
        | ok first =>
          rw [readCommand, bind_of_ok hreceive]
          cases first <;> exact hless
        | error e =>
          rw [readCommand, bind_of_error hreceive]
          exact hless
  | false =>
    have hclosed : readCommand c = (.error .closed, c) :=
      bind_of_error (bind_of_error (requireOpen_run_closed hopen))
    exact .inr ⟨.closed, congrArg Prod.fst hclosed, nofun⟩

/-- Accepting a handshake gets on, whether or not the first byte asks for one. -/
theorem advances_acceptHandshake : Advances acceptHandshake := by
  refine advances_readByte.bind fun first => ?_
  split
  · exact (respects_throw _).bind fun _ => respects_negotiateServer
  · exact respects_negotiateServer

end Session

end RemoteCall
