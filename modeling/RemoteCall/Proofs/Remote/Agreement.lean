import RemoteCall.Proofs.Formats
import RemoteCall.Proofs.Remote.Local
import RemoteCall.Proofs.Remote.Outcome

/-!
# Agreement on the format

A handle and a server that are joined by a handshake have one format in effect, and every exchange
that the client has an answer to leaves both of them between two requests in that format: the server
has carried the request out and sent its reply in full. A new handshake settles on the format of the
first, since neither side changes its own.
-/

namespace RemoteCall

variable {σ : Type}

namespace Deed

/-- Something is asked of the server. -/
def IsExchange : Deed → Prop
  | operate _ | reconnect => True
  | close | watch _ | unwatch => False

end Deed

namespace Joined

open Session

/-- The client asks something of the server, and it has an answer within so many rounds. -/
def Completes (h : Host σ) (rounds : Nat) (j : Joined σ) (d : Deed) : Prop :=
  d.IsExchange ∧ 2 ≤ rounds ∧ Answered (run h rounds d.run j).1

/-- From one to the other by exchanges that the client has an answer to. -/
inductive Conversed (h : Host σ) (j : Joined σ) : Joined σ → Prop where
  | nothing : Conversed h j j
  | exchange {k : Joined σ} (rounds : Nat) (d : Deed) (before : Conversed h j k)
    (completes : Completes h rounds k d) : Conversed h j (run h rounds d.run k).2

/-- Both sides are between two requests in this format, with these formats of their own. -/
structure Between (peer own f : Format) (j : Joined σ) : Prop where
  ready : j.Ready f
  client_native : j.client.conn.native = peer
  server_native : j.server.conn.native = own

variable {peer own f : Format} {h : Host σ} {j k : Joined σ} {rounds : Nat} {d : Deed}

/-- Whatever is done with the handle, both connections stay sound. -/
theorem sound_run (hown : own.isSupported = true) (d : Deed) (rounds : Nat)
    (hclient : j.client.conn.Sound peer) (hserver : j.server.conn.Sound own) :
    (run h rounds d.run j).2.client.conn.Sound peer ∧
      (run h rounds d.run j).2.server.conn.Sound own := by
  constructor
  · have hstep : ∀ input : Inbound,
        (step d.run j.client { j.client.conn.line with inbound := input }).1.2.conn.Sound peer :=
      fun input => Handle.sound_run d (hclient.withLine _)
    have hlast := Link.fst_perform
      (p := fun ran : Except Error d.Result × Handle => ran.2.conn.Sound peer)
      (fun sent => answer h j.server (sent.drop j.client.conn.line.written.length)) rounds
      { line := j.client.conn.line } hstep
    exact hlast.withLine _
  · exact Serving.serveOne_preserves hown h _ (hserver.withLine _)

namespace Ready

/-- A server that is ready takes a request as a whole, answers it and is between two requests. -/
theorem served_request (hj : j.Ready f) (hnative : j.server.conn.native = own) (h : Host σ)
    (r : Request f) :
    ∃ later, serveOne h (j.server.hearing r.bytes) =
        ((r.reply own h j.server.host).outcome, ⟨later, r.effect h j.server.host⟩) ∧
      later.Serves own (r.next own) ∧ later.line.inbound = ⟨[], []⟩ ∧
      later.line.written = j.server.conn.line.written ++ (r.reply own h j.server.host).bytes := by
  have hserves : j.server.conn.Serves own f := ⟨hj.server_openIn, hnative, hj.server_free⟩
  obtain ⟨later, hserve, hlater, hnext, hwritten⟩ :=
    Serving.serveOne_request (s := j.server.hearing r.bytes) h r (hserves.withInput _)
      (hj.hears _)
  exact ⟨later, hserve, hlater, hnext.eq_of_nil, hwritten⟩

/-- The result of a step is that of the attempt. -/
theorem result_step (hj : j.Ready f) (hd : d.IsExchange) (input : Inbound) :
    (step d.run j.client { j.client.conn.line with inbound := input }).1.1 =
      (d.attempt j.client.settings (j.client.conn.withInput input)).1 := by
  have hnone : d.installs j.client.handler = none := by
    rw [Handle.watched_eq_false_iff.mp hj.unwatched]
    cases d with
    | operate op => rfl
    | reconnect => rfl
    | close => exact hd.elim
    | watch handler => exact hd.elim
    | unwatch => exact hd.elim
  have hrun := d.run_eq { j.client with conn := j.client.conn.withInput input }
  change (d.run { j.client with conn := j.client.conn.withInput input }).1 = _
  rw [hrun]
  cases (d.attempt j.client.settings (j.client.conn.withInput input)).1 with
  | ok a => rfl
  | error e => exact (Handle.finish_error_of_none e hnone).1

/-- The client has an answer only to an operation that it could send. -/
theorem encodable_of_answered {op : Operation} (hj : j.Ready f)
    (hanswered : Answered (run h rounds (Deed.operate op).run j).1) :
    op.path.check j.client.settings.maxNameLength = .ok () ∧ op.Encodable f := by
  have hstep : ∀ input : Inbound,
      Answered (step (Deed.operate op).run j.client
        { j.client.conn.line with inbound := input }).1.1 →
      op.path.check j.client.settings.maxNameLength = .ok () ∧ op.Encodable f := by
    intro input hanswered
    rw [hj.result_step (d := .operate op) trivial] at hanswered
    exact Exchange.encodable_of_answered (hj.client_openIn.withInput input) hj.client_free hanswered
  have hlast := Link.fst_perform
    (p := fun ran : Except Error (Deed.operate op).Result × Handle => Answered ran.1 →
      op.path.check j.client.settings.maxNameLength = .ok () ∧ op.Encodable f)
    (fun sent => answer h j.server (sent.drop j.client.conn.line.written.length)) rounds
    { line := j.client.conn.line } hstep
  exact hlast hanswered

/-- An operation that is accepted is its exchange on every line of the client. -/
theorem performs_operate {op : Operation} {client : Handle}
    (hnames : op.path.check client.settings.maxNameLength = .ok ()) (hcount : op.Countable) :
    Performs client (Deed.operate op).run
      (Exchange.exchange op (Exchange.await client.settings op)) := by
  cases op with
  | call path args => exact performs_call hnames hcount
  | get path => exact performs_get hnames
  | set path key value => exact performs_set hnames key value

/-- What the client sends of an operation is a frame, and the server sends its consent and its
answer to what the frame asks, as far as it can be encoded. -/
theorem served_operation {op : Operation} (hj : j.Ready f) (hnative : j.server.conn.native = own)
    (h : Host σ) (hop : op.Encodable f) :
    ∃ (F : Frame f) (asked : Operation) (host : σ) (conn : Connection),
      F.bytes = (op.emission f).bytes ∧ F.command = op.command ∧ asked.command = op.command ∧
      served h j.server F.bytes = ⟨conn, F.effect h j.server.host⟩ ∧ conn.Serves own f ∧
      conn.line.inbound = ⟨[], []⟩ ∧
      conn.line.written = j.server.conn.line.written ++
        (Status.ready.toByte :: (asked.answer f h host).bytes) := by
  obtain ⟨F, hbegins⟩ := Frame.operation_begins hj.supported op hop.1
  obtain ⟨hframe, hreading⟩ := hbegins.of_none hop.2
  have hsound : F.Sound := ⟨_, hreading⟩
  obtain ⟨asked, host, hasked, -⟩ := hsound.completes h j.server.host
  have hcommand : F.command = op.command := by
    rw [op.emission_eq] at hframe
    have hbyte : op.command.toByte = F.command.toByte := (List.cons.inj hframe).1
    exact Option.some.inj (by rw [← Command.ofByte?_toByte, ← hbyte, Command.ofByte?_toByte])
  obtain ⟨conn, hserve, hserves, hdrained, hwritten⟩ :=
    hj.served_request hnative h (.frame F hsound)
  have hreply : ((Request.frame F hsound).reply own h j.server.host).bytes =
      Status.ready.toByte :: (asked.answer f h host).bytes := by
    change (F.reply h j.server.host).bytes = _
    rw [F.bytes_reply, hasked]
  rw [hreply] at hwritten
  exact ⟨F, asked, host, conn, hframe.symm, hcommand,
    (Frame.command_of_asked hasked).trans hcommand, congrArg Prod.snd hserve, hserves, hdrained,
    hwritten⟩

/-- An exchange whose reply is cut short times out, since the server has nothing more to send. -/
theorem times_out {op : Operation} {reply : List UInt8} (hj : j.Ready f)
    (hnames : op.path.check j.client.settings.maxNameLength = .ok ()) (hop : op.Encodable f)
    (hconsent : answer h j.server [op.command.toByte] = [Status.ready.toByte])
    (hanswer : answer h j.server (op.emission f).bytes = Status.ready.toByte :: reply)
    (hcut : Stalls f (Exchange.await j.client.settings op) reply []) (hrounds : 2 ≤ rounds) :
    (run h rounds (Deed.operate op).run j).1 = .error .timeout := by
  have hact := performs_operate hnames hop.1
  have hstalls := Exchange.exchange_stalls_at_reply hop hcut
  obtain ⟨input, hin, hrun⟩ :=
    hj.run_exchange hact hop (Exchange.await_stalls _ op) hconsent hanswer
      (fun _ hin => hj.step_stalls hact hstalls hin) hrounds
  obtain ⟨later, hfails, -⟩ := hstalls (j.client.conn.withInput input) [Link.silence] .timeout []
    (hj.client_openIn.withInput input) hj.client_free hin Link.meets_silence
  have hresult := hj.result_step (d := .operate op) trivial input
  rw [Exchange.attempt_operate hnames hop.1, hfails] at hresult
  rw [hrun _ _ _ rfl]
  exact hresult

/-- After an operation that the client has an answer to, both sides are ready for the next one. -/
theorem operate {op : Operation} (hj : j.Ready f) (hnative : j.server.conn.native = own)
    (hrounds : 2 ≤ rounds) (hanswered : Answered (run h rounds (Deed.operate op).run j).1) :
    (run h rounds (Deed.operate op).run j).2.Ready f := by
  obtain ⟨hnames, hop⟩ := hj.encodable_of_answered hanswered
  obtain ⟨F, asked, host, conn, hF, hcommand, hasked, hserved, hserves, hdrained, hwritten⟩ :=
    hj.served_operation hnative h hop
  cases hwhole : (asked.answer f h host).failure with
  | none =>
    obtain ⟨result, hdoes, hresult⟩ :=
      Exchange.await_does_answer hj.supported j.client.settings hasked hwhole
    obtain ⟨later, hrun, hready, -⟩ :=
      hj.ends_of_served (performs_operate hnames hop.1) hop hF hserved hserves.openIn hserves.free
        hdrained hwritten (Exchange.await_stalls _ op) hdoes hresult.not_closes hrounds
    rw [hrun]
    exact hready
  | some e =>
    -- The reply was cut short, so that the client has no answer.
    have hconsent : answer h j.server [op.command.toByte] = [Status.ready.toByte] := by
      rw [← hcommand]
      exact hj.answer_command h F
    have hanswer : answer h j.server (op.emission f).bytes =
        Status.ready.toByte :: (asked.answer f h host).bytes := by
      rw [← hF, answer, hserved, hwritten, List.drop_left]
    have htimeout := hj.times_out hnames hop hconsent hanswer
      (Exchange.await_stalls_answer hj.supported j.client.settings hasked hwhole) hrounds
    rw [htimeout] at hanswered
    exact absurd (hanswered .timeout rfl) (Error.Closes.not_isRemote (.inr rfl))

/-- A server that is ready answers a handshake with the format it settles on. -/
theorem served_greeting (hj : j.Ready f) (hserver : j.server.conn.native = own)
    (hpeer : peer.isSupported = true) (h : Host σ) :
    ∃ conn, served h j.server (greetingBytes peer) = ⟨conn, j.server.host⟩ ∧
      conn.OpenIn (own.reconcile (Header.ofFormat peer)) ∧ conn.line.intake = .free ∧
      conn.line.inbound = ⟨[], []⟩ ∧
      answer h j.server (greetingBytes peer) =
        (Header.ofFormat (own.reconcile (Header.ofFormat peer))).encode := by
  obtain ⟨conn, hserve, hserves, hdrained, hwritten⟩ :=
    hj.served_request hserver h
      (.greet _ _ (Header.decode_encode (Header.isValid_ofFormat hpeer)))
  have hserved : served h j.server (greetingBytes peer) = ⟨conn, j.server.host⟩ :=
    congrArg Prod.snd hserve
  refine ⟨conn, hserved, hserves.openIn, hserves.free, hdrained, ?_⟩
  rw [answer, hserved, hwritten]
  exact List.drop_left

/-- To reconnect is a handshake on every line of the client. -/
theorem performs_reconnect : Performs j.client Handle.reconnect negotiateClient := fun _ => rfl

/-- A new handshake waits for the header of the server. -/
theorem reconnect_stalls {input : Inbound} (hj : j.Ready f)
    (hin : input.Brings [] [Link.silence]) :
    (step Handle.reconnect j.client { j.client.conn.line with inbound := input }).2.written =
      j.client.conn.line.written ++ greetingBytes j.client.conn.native := by
  obtain ⟨later, hrun, hsent⟩ :=
    negotiateClient_stalls (hj.client_openIn.withInput input) hj.client_free hin Link.meets_silence
  rw [performs_reconnect.step_of_run hrun]
  exact (Handle.written_finish _).trans hsent

/-- With the header before it a new handshake is done. -/
theorem reconnect_does {input : Inbound} {agreed : Format} (hj : j.Ready f)
    (hagreed : agreed.isSupported = true)
    (hin : input.Brings (Header.ofFormat agreed).encode [Link.silence]) :
    ∃ later : Connection,
      step Handle.reconnect j.client { j.client.conn.line with inbound := input } =
        ((.ok (), { j.client with conn := later }), later.line) ∧
      later.OpenIn agreed ∧ later.line.intake = .free ∧
      later.line.inbound.Brings [] [Link.silence] ∧
      later.line.written = j.client.conn.line.written ++ greetingBytes j.client.conn.native := by
  rw [← List.append_nil (Header.ofFormat agreed).encode] at hin
  obtain ⟨later, hrun, hlater⟩ :=
    negotiateClient_does hagreed (hj.client_openIn.withInput input) hj.client_free hin
  exact ⟨later, performs_reconnect.step_of_run hrun, hlater⟩

/-- A new handshake of a joined handle succeeds, and leaves both sides ready in the format that the
server settles on. -/
theorem ends_reconnect (hj : j.Ready f) (hclient : j.client.conn.native = peer)
    (hserver : j.server.conn.native = own) (hpeer : peer.isSupported = true)
    (hown : own.isSupported = true) (hrounds : 1 ≤ rounds) :
    j.Ends (own.reconcile (Header.ofFormat peer)) h rounds Handle.reconnect (.ok ())
      j.server.host := by
  subst hclient
  obtain ⟨rounds, rfl⟩ := Nat.exists_eq_add_of_le' hrounds
  have hagreed := Format.isSupported_reconcile hown (Header.isValid_ofFormat hpeer)
  obtain ⟨conn, hserved, hconn, hfree, hdrained, hanswer⟩ := hj.served_greeting hserver hpeer h
  generalize own.reconcile (Header.ofFormat j.client.conn.native) = agreed
    at hagreed hconn hanswer ⊢
  let server := fun sent : List UInt8 =>
    answer h j.server (sent.drop j.client.conn.line.written.length)
  have hsends : server (j.client.conn.line.written ++ greetingBytes j.client.conn.native) =
      (Header.ofFormat agreed).encode := by
    simp only [server, List.drop_left]
    exact hanswer
  have hcomplete : ∀ input : Inbound, input.Brings (Header.ofFormat agreed).encode [Link.silence] →
      (step Handle.reconnect j.client { j.client.conn.line with inbound := input }).2.written =
        j.client.conn.line.written ++ greetingBytes j.client.conn.native := by
    intro input hin
    obtain ⟨later, hrun, -, -, -, hsent⟩ := hj.reconnect_does hagreed hin
    rw [hrun]
    exact hsent
  obtain ⟨input, hin, hends⟩ := Link.perform_of_answer hj.client_drained (List.cons_ne_nil _ _)
    (fun _ hin => hj.reconnect_stalls hin) hcomplete hsends rounds
  obtain ⟨later, hlast, hopen, hlfree, hrest, hsent⟩ := hj.reconnect_does hagreed hin
  obtain ⟨link, hperform, hline⟩ := hends _ _ hlast hrest
  have hbytes : link.line.written.drop j.client.conn.line.written.length =
      greetingBytes j.client.conn.native := by
    rw [hline]
    change later.line.written.drop _ = _
    rw [hsent, List.drop_left]
  have hrun := run_of_perform hperform
  rw [hbytes, hserved, hline] at hrun
  refine ⟨_, hrun, ?_, rfl, rfl⟩
  exact ⟨hagreed, hopen.withInput _, hconn, hlfree, hfree, rfl, hdrained, hj.unwatched⟩

end Ready

/-- Between two requests a new handshake succeeds. -/
theorem Between.completes_reconnect (hj : j.Between peer own f) (hpeer : peer.isSupported = true)
    (hown : own.isSupported = true) (h : Host σ) (hrounds : 2 ≤ rounds) :
    Completes h rounds j .reconnect := by
  obtain ⟨later, hrun, -⟩ :=
    hj.ready.ends_reconnect (h := h) hj.client_native hj.server_native hpeer hown
      (Nat.le_of_succ_le hrounds)
  have hagain : Joined.run h rounds Deed.reconnect.run j = (.ok (), later) := hrun
  refine ⟨trivial, hrounds, ?_⟩
  rw [hagain]
  exact answered_ok ()

/-- An exchange that the client has an answer to leads from between two requests to between two
requests, in the format on which the first handshake settled. -/
theorem Between.run (hj : j.Between peer own (own.reconcile (Header.ofFormat peer)))
    (hpeer : peer.isSupported = true) (hown : own.isSupported = true)
    (hd : Completes h rounds j d) :
    (run h rounds d.run j).2.Between peer own (own.reconcile (Header.ofFormat peer)) := by
  obtain ⟨hexchange, hrounds, hanswered⟩ := hd
  obtain ⟨hready, hclient, hserver⟩ := hj
  have hsupported := hready.supported
  obtain ⟨hclient', hserver'⟩ := sound_run (h := h) (j := j) hown d rounds
    ⟨hclient, hready.client_openIn.format_eq ▸ hsupported⟩
    ⟨hserver, hready.server_openIn.format_eq ▸ hsupported⟩
  refine ⟨?_, hclient'.native_eq, hserver'.native_eq⟩
  cases d with
  | operate op => exact hready.operate hserver hrounds hanswered
  | reconnect =>
    obtain ⟨later, hrun, hlater, -⟩ :=
      hready.ends_reconnect (h := h) hclient hserver hpeer hown (Nat.le_of_succ_le hrounds)
    have hagain : Joined.run h rounds Deed.reconnect.run j = (.ok (), later) := hrun
    rw [hagain]
    exact hlater
  | close => exact hexchange.elim
  | watch handler => exact hexchange.elim
  | unwatch => exact hexchange.elim

/-- Any number of them does. -/
theorem Conversed.between (hrun : Conversed h j k)
    (hj : j.Between peer own (own.reconcile (Header.ofFormat peer)))
    (hpeer : peer.isSupported = true) (hown : own.isSupported = true) :
    k.Between peer own (own.reconcile (Header.ofFormat peer)) := by
  induction hrun with
  | nothing => exact hj
  | exchange rounds d before completes ih => exact ih.run hpeer hown completes

/-- A handshake joins a handle and a server that keep the formats of their own. -/
theorem sound_of_greet {settings : ClientSettings} (hown : own.isSupported = true) {host : σ}
    (hgreet : greet settings own rounds host = .ok j) :
    j.client.conn.Sound settings.format ∧ j.server.conn.Sound own := by
  have hstep : ∀ (line : Line) (client : Handle),
      (greetStep settings line).1 = .ok client → client.conn.Sound settings.format := by
    intro line client hok
    have hstart : Handle.ofLine line settings = (.ok client, (Handle.ofLine line settings).2) :=
      Prod.ext hok rfl
    obtain ⟨-, -, -, -, -, hnative, hsupported⟩ := Handle.of_ofLine hstart
    exact ⟨hnative, hsupported⟩
  have hlast : ∀ client, (Link.perform (fun sent => (greeted own sent).line.written)
      (greetStep settings) rounds Link.fresh).1 = .ok client →
      client.conn.Sound settings.format :=
    Link.fst_perform
      (p := fun result : Except Error Handle => ∀ client, result = .ok client →
        client.conn.Sound settings.format)
      (fun sent => (greeted own sent).line.written) rounds Link.fresh fun input => hstep _
  have hserver : ∀ bytes, (greeted own bytes).Sound own := fun bytes =>
    acceptHandshake_preserves hown _ (Connection.sound_ofLine hown _)
  unfold greet at hgreet
  generalize Link.perform (fun sent => (greeted own sent).line.written) (greetStep settings) rounds
    Link.fresh = ran at hlast hgreet
  obtain ⟨result, link⟩ := ran
  cases result with
  | error e => exact nomatch hgreet
  | ok client =>
    cases hgreet
    exact ⟨(hlast client rfl).withLine _, hserver _⟩

end Joined

namespace Format

variable {f own peer : Format}

/-- The check of formats accepts it. -/
def IsAccepted (f : Format) : Prop := f.check = .ok f

/-- A format is accepted exactly when this side can use it. -/
theorem isAccepted_iff : f.IsAccepted ↔ f.isSupported = true := by
  unfold IsAccepted check
  cases f.isSupported <;> simp

/-- Numbers take exactly as many bytes as the format is wide, and those are no more than eight. -/
structure IsExact (f : Format) : Prop where
  width_le : f.width.toNat ≤ 8
  /-- So many are written. -/
  written : ∀ x, (f.numberBytes x).length = f.width.toNat
  /-- So many are read, whatever they are and whatever follows them. -/
  read : ∀ bytes : List UInt8, bytes.length = f.width.toNat →
    (Reader.number f).Follows bytes (.done ⟨f.numberOf bytes, f.kind⟩)
  /-- No number is read from fewer. -/
  needed : ∀ bytes : List UInt8, bytes.length < f.width.toNat → (Reader.number f).Breaks bytes

/-- An accepted format is exact: its numbers take as many bytes as it is wide. -/
theorem IsAccepted.isExact (hf : f.IsAccepted) : f.IsExact := by
  have hsupported := isAccepted_iff.mp hf
  refine ⟨?_, length_numberBytes hsupported, fun _ => Reader.follows_number, fun _ hshort => ?_⟩
  · obtain ⟨order, width, kind⟩ := f
    cases kind with
    | integer =>
      simp only [isSupported, supports, Bool.or_eq_true, decide_eq_true_eq] at hsupported
      rcases hsupported with ((rfl | rfl) | rfl) | rfl <;> simp
    | float =>
      simp only [isSupported, supports, Bool.or_eq_true, decide_eq_true_eq] at hsupported
      rcases hsupported with rfl | rfl <;> simp
  · exact (Reader.breaks_take hshort).bind

/-- What two formats have in common. -/
structure IsCommon (peer own f : Format) : Prop where
  accepted : f.IsAccepted
  littleEndian : f.littleEndian = true ↔ peer.littleEndian = true ∧ own.littleEndian = true
  width : f.width.toNat = min peer.width.toNat own.width.toNat
  integer : f.kind = .integer ↔ peer.kind = .integer ∨ own.kind = .integer

/-- A server settles on what its own format and that of its peer have in common. -/
theorem isCommon_reconcile (hpeer : peer.IsAccepted) (hown : own.IsAccepted) :
    IsCommon peer own (own.reconcile (Header.ofFormat peer)) := by
  rw [isAccepted_iff] at hpeer hown
  have horder : (own.reconcile (Header.ofFormat peer)).littleEndian =
      (own.littleEndian && peer.littleEndian) := rfl
  have hwidth : (own.reconcile (Header.ofFormat peer)).width =
      if own.width ≤ peer.width then own.width else peer.width := rfl
  have hkind : (own.reconcile (Header.ofFormat peer)).kind =
      if peer.kind = own.kind then own.kind else .integer := rfl
  have hsupported := isSupported_reconcile hown (Header.isValid_ofFormat hpeer)
  refine ⟨isAccepted_iff.mpr hsupported, ?_, ?_, ?_⟩
  · rw [horder, Bool.and_eq_true]
    exact and_comm
  · rw [hwidth]
    by_cases hle : own.width ≤ peer.width
    · rw [if_pos hle]
      exact (Nat.min_eq_right (UInt8.le_iff_toNat_le.mp hle)).symm
    · rw [if_neg hle]
      exact (Nat.min_eq_left (Nat.le_of_not_le (mt UInt8.le_iff_toNat_le.mpr hle))).symm
  · rw [hkind]
    cases peer.kind <;> cases own.kind <;> decide

end Format

/-- Handles and servers with these formats of their own are in an accepted format at any time, on
any lines, whatever these bring and take. -/
structure AlwaysAccepted (settings : ClientSettings) (own : Format) (h : Host σ) (host : σ) :
    Prop where
  /-- A client behind its handshake, whether or not that succeeded. -/
  greeted : ∀ line, (Handle.ofLine line settings).2.format.IsAccepted
  /-- A handle, whatever was done with it and whatever failed. -/
  handle : ∀ line start conn, Handle.ofLine line settings = (.ok start, conn) →
    ∀ past, (start.afterAll past).conn.format.IsAccepted
  /-- A server behind its handshake, whether or not that succeeded. -/
  awaited : ∀ line rounds, (awaitHandshake rounds (.ofLine line own)).2.format.IsAccepted
  /-- A server at the beginning of any round. -/
  round : ∀ line rounds conn, awaitHandshake rounds (.ofLine line own) = (.ok (), conn) →
    ∀ n s, Serving.round? h n ⟨conn, host⟩ = some s → s.conn.format.IsAccepted
  /-- A server that has come to its end. -/
  served : ∀ line, (serve h ⟨.ofLine line own, host⟩).2.conn.format.IsAccepted
  /-- Every worker of a server of many peers, after any cycles. -/
  workers : ∀ (listening : ServerSettings) (s : Server σ), listening.format = own →
    Server.bind listening host = .ok s → ∀ pending polls,
      ∀ w ∈ (Server.cycles h polls { s with pending := pending }).2.registry.workers,
        w.conn.format.IsAccepted

/-- Between sides that begin with accepted formats no other one is ever in effect. -/
theorem alwaysAccepted {settings : ClientSettings} {own : Format}
    (hclient : settings.format.IsAccepted) (hserver : own.IsAccepted) (h : Host σ) (host : σ) :
    AlwaysAccepted settings own h host := by
  rw [Format.isAccepted_iff] at hclient hserver
  have hawait : ∀ line rounds, (awaitHandshake rounds (.ofLine line own)).2.Sound own :=
    fun line rounds =>
      Serving.awaitHandshake_preserves hserver rounds _ (Connection.sound_ofLine hserver line)
  refine
    { greeted := fun line =>
        Format.isAccepted_iff.mpr (Handle.sound_ofLine hclient line).supported
      handle := fun line start conn hstart past => ?_
      awaited := fun line rounds => Format.isAccepted_iff.mpr (hawait line rounds).supported
      round := fun line rounds conn hrun n s hround => ?_
      served := fun line => ?_
      workers := fun listening s hformat hstart pending polls w hw => ?_ }
  · obtain ⟨-, -, -, -, -, hnative, hsupported⟩ := Handle.of_ofLine hstart
    have hsound : start.conn.Sound settings.format := ⟨hnative, hsupported⟩
    exact Format.isAccepted_iff.mpr (Handle.sound_afterAll past hsound).supported
  · have hconn := hawait line rounds
    rw [hrun] at hconn
    exact Format.isAccepted_iff.mpr (Serving.sound_round hserver h hconn hround).supported
  · exact Format.isAccepted_iff.mpr (Serving.serve_preserves hserver h ⟨.ofLine line own, host⟩
      (Connection.sound_ofLine hserver line)).supported
  · have hbound := Server.sound_bind hstart
    rw [hformat] at hbound
    have hs : ({ s with pending := pending } : Server σ).Sound own :=
      ⟨hbound.native_eq, hbound.registry⟩
    have hworkers := (Registry.sound_iff.mp (hs.cycles hserver h polls).registry).1
    exact Format.isAccepted_iff.mpr (hworkers w hw).supported

namespace Joined

/-- A handle and a server with any accepted formats of their own that are joined by a handshake have
what these formats have in common in effect, both of them, between any two of the exchanges that the
client has an answer to, new handshakes included, and a new handshake succeeds there at any time.
Whatever else a handle or a server meets, it is in a format that is accepted, and so one in which
numbers have their exact width. -/
theorem formats_agree (settings : ClientSettings) (own : Format)
    (hclient : settings.format.IsAccepted) (hserver : own.IsAccepted) (h : Host σ) (host : σ) :
    ∃ agreed : Format, Format.IsCommon settings.format own agreed ∧
      (∀ rounds, 1 ≤ rounds → ∃ start, greet settings own rounds host = .ok start ∧
        ∀ now, Conversed h start now →
          now.client.conn.format = agreed ∧ now.server.conn.format = agreed ∧
            ∀ rounds, 2 ≤ rounds → Completes h rounds now .reconnect) ∧
      AlwaysAccepted settings own h host ∧ ∀ f : Format, f.IsAccepted → f.IsExact := by
  have hpeer := Format.isAccepted_iff.mp hclient
  have hown := Format.isAccepted_iff.mp hserver
  refine ⟨own.reconcile (Header.ofFormat settings.format),
    Format.isCommon_reconcile hclient hserver, fun rounds hrounds => ?_,
    alwaysAccepted hclient hserver h host, fun f hf => hf.isExact⟩
  obtain ⟨start, hgreet, hready, -⟩ := ready_of_greet hpeer hown hrounds host
  obtain ⟨hstartClient, hstartServer⟩ := sound_of_greet hown hgreet
  refine ⟨start, hgreet, fun now hrun => ?_⟩
  have hbetween :=
    hrun.between ⟨hready, hstartClient.native_eq, hstartServer.native_eq⟩ hpeer hown
  exact ⟨hbetween.ready.client_openIn.format_eq, hbetween.ready.server_openIn.format_eq,
    fun _ => hbetween.completes_reconnect hpeer hown h⟩

/-- A big-endian client calls a server that has only short integers, and then both negotiate again.
-/
theorem formats_agree_narrow :
    ∃ start now,
      greet { native := some ⟨false, 8, .float⟩ } ⟨true, 2, .integer⟩ 1 demo = .ok start ∧
      Conversed Namespace.host start now ∧
      now.client.conn.format = ⟨false, 2, .integer⟩ ∧
      now.server.conn.format = ⟨false, 2, .integer⟩ := by
  let call : Deed := .operate (.call ⟨["counter"]⟩ [])
  obtain ⟨agreed, hcommon, hagree, -⟩ :=
    formats_agree { native := some ⟨false, 8, .float⟩ } ⟨true, 2, .integer⟩ rfl rfl
      Namespace.host demo
  obtain ⟨start, hgreet, hnow⟩ := hagree 1 (Nat.le_refl 1)
  let called := (run Namespace.host 2 call.run start).2
  have hanswer : (run Namespace.host 2 call.run start).1.isOk = true := by
    have hruns : (greet { native := some ⟨false, 8, .float⟩ } ⟨true, 2, .integer⟩ 1
        demo).toOption.map (fun start => (run Namespace.host 2 call.run start).1.isOk) =
          some true := by
      decide +kernel
    rw [hgreet] at hruns
    exact Option.some.inj hruns
  have hcalled : Conversed Namespace.host start called :=
    .exchange 2 call .nothing ⟨trivial, Nat.le_refl 2, answered_of_isOk hanswer⟩
  have hrun : Conversed Namespace.host start (run Namespace.host 2 Deed.reconnect.run called).2 :=
    .exchange 2 .reconnect hcalled ((hnow called hcalled).2.2 2 (Nat.le_refl 2))
  have hagreed : agreed = ⟨false, 2, .integer⟩ := by
    obtain ⟨order, width, kind⟩ := agreed
    have horder : order = false :=
      Bool.eq_false_iff.mpr fun h => nomatch (hcommon.littleEndian.mp h).1
    have hwidth : width = 2 := UInt8.toNat_inj.mp hcommon.width
    have hkind : kind = .integer := hcommon.integer.mpr (.inr rfl)
    rw [horder, hwidth, hkind]
  obtain ⟨hclient, hserver, -⟩ := hnow _ hrun
  exact ⟨start, _, hgreet, hrun, hclient.trans hagreed, hserver.trans hagreed⟩

end Joined

end RemoteCall
