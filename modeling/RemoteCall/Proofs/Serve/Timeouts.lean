import RemoteCall.Proofs.Serve.Pauses

/-!
# Timeouts on a served line

What becomes of a whole run when reads time out. A server that awaits a handshake starts over after
each timeout, with what it has read of the handshake lost. It then meets the rest of a header, which
looks like no handshake, or it gets to the requests behind it, of which only a new handshake will
do. So a disturbed handshake costs the connection, or it is made good by the next one. Behind the
handshake pauses between requests are harmless, and a pause inside a request is not.
-/

namespace RemoteCall

variable {σ : Type}

namespace Session

variable {c : Connection} {part rest : List UInt8} {after later : List Arrival}
  {e : Error}

/-- Less than a greeting: nothing, or the command byte with too little of a header behind it. -/
def BeginsGreeting (part : List UInt8) : Prop :=
  part = [] ∨ ∃ begun, part = Command.connect.toByte :: begun ∧ begun.length < headerLength

/-- With less than a header before it a server fails as the line does, and that is lost. -/
theorem negotiateServer_breaks (hopen : c.isOpen = true) (hpart : part.length < headerLength)
    (hin : c.line.inbound.Brings part after) (hmeets : Inbound.Meets after e later) :
    negotiateServer c = (.error e, c.withInput ⟨[], later⟩) := by
  have hread := receive_run hopen fun _ => Reader.take headerLength
  have hfill : Reader.take headerLength c.line.inbound = (.error e, ⟨[], later⟩) :=
    Inbound.fill_of_meets hin hpart hmeets
  rw [hfill] at hread
  rw [negotiateServer]
  exact bind_of_error hread

/-- With less than a greeting before it a server fails as the line does, and that is lost. -/
theorem acceptHandshake_breaks (hopen : c.isOpen = true)
    (hpart : BeginsGreeting part)
    (hin : c.line.inbound.Brings part after) (hmeets : Inbound.Meets after e later) :
    acceptHandshake c = (.error e, c.withInput ⟨[], later⟩) := by
  rcases hpart with rfl | ⟨begun, rfl, hlength⟩
  · have hread := receive_run hopen fun _ => Reader.byte
    rw [Reader.breaks_byte _ _ _ _ hin hmeets] at hread
    exact bind_of_error hread
  · obtain ⟨middle, hmiddle, haccept⟩ := acceptHandshake_of_connect hopen hin
    exact haccept.trans
      (negotiateServer_breaks (c := c.withInput middle) hopen hlength hmiddle hmeets)

/-- A pause inside a greeting is a timeout, and the next piece follows. -/
theorem acceptHandshake_paused {pieces : List (List UInt8)} (hopen : c.isOpen = true)
    (hpart : BeginsGreeting part)
    (hin : c.line.inbound.Paced (part :: pieces)) (hne : pieces ≠ []) :
    ∃ input, acceptHandshake c = (.error .timeout, c.withInput input) ∧ input.Paced pieces := by
  obtain ⟨e, later, hbrings, he, hpaced⟩ := hin.pause_next hne
  have hmeets : Inbound.Meets (.fault e :: later) .timeout later := by
    rw [← he]
    exact .fault e later (Error.kind_ne_interrupted he)
  exact ⟨_, acceptHandshake_breaks hopen hpart hbrings hmeets, hpaced⟩

/-- Any other byte in the place of the first one is refused. -/
theorem acceptHandshake_stray {b : UInt8} (hopen : c.isOpen = true)
    (hb : b ≠ Command.connect.toByte) (hin : c.line.inbound.Brings (b :: rest) after) :
    ∃ input, acceptHandshake c = (.error (.header (.notConnect b)), c.withInput input) ∧
      input.Brings rest after := by
  have hfirst : c.line.inbound.Brings ([b] ++ rest) after := hin
  obtain ⟨input, hbyte, hinput⟩ :=
    receive_follows (fun _ => Reader.byte) hopen (Reader.follows_byte b) hfirst
  have hread : readByte c = (.ok b, c.withInput input) := hbyte
  refine ⟨input, ?_, hinput⟩
  rw [acceptHandshake, bind_of_ok hread]
  simp only [ne_eq, hb, not_false_eq_true, ↓reduceIte]
  rfl

/-- Behind the command a header that cannot be decoded is refused. -/
theorem negotiateServer_malformed {bytes : List UInt8} (hopen : c.isOpen = true)
    (hlength : bytes.length = headerLength) (hheader : Header.decode bytes = .error e)
    (hin : c.line.inbound.Brings (bytes ++ rest) after) :
    ∃ input, negotiateServer c = (.error e, c.withInput input) ∧ input.Brings rest after := by
  have htake : (Reader.take headerLength).Follows bytes (.done bytes) := by
    rw [← hlength]
    exact Reader.follows_take bytes
  obtain ⟨input, hrun, hinput⟩ :=
    receive_follows (fun _ => Reader.take headerLength) hopen htake hin
  refine ⟨input, ?_, hinput⟩
  rw [negotiateServer, bind_of_ok hrun, hheader]
  rfl

/-- A header that cannot be decoded is refused. -/
theorem acceptHandshake_malformed {bytes : List UInt8} (hopen : c.isOpen = true)
    (hlength : bytes.length = headerLength) (hheader : Header.decode bytes = .error e)
    (hin : c.line.inbound.Brings (Command.connect.toByte :: (bytes ++ rest)) after) :
    ∃ input, acceptHandshake c = (.error e, c.withInput input) := by
  obtain ⟨middle, hmiddle, haccept⟩ := acceptHandshake_of_connect hopen hin
  obtain ⟨input, hrun, -⟩ := negotiateServer_malformed (c := c.withInput middle) hopen hlength
    hheader hmiddle
  exact ⟨input, haccept.trans hrun⟩

end Session

namespace Header

/-- Bytes that do not begin like the magic are no header. -/
theorem decode_of_ne {b : UInt8} {bytes : List UInt8} (hb : b ≠ 0x4c) :
    ∃ fault, decode (b :: bytes) = .error (.header fault) := by
  unfold decode
  split
  · rename_i heq
    have hmagic : ∀ m₁ m₂ m₃ : UInt8, [b, m₁, m₂, m₃] ≠ magic := by
      intro m₁ m₂ m₃ heq
      exact hb (List.cons.inj heq).1
    cases heq
    rw [if_pos (hmagic _ _ _)]
    exact ⟨_, rfl⟩
  · exact ⟨_, rfl⟩

/-- The rest of a header is no greeting: it does not begin like one, or no header follows. -/
theorem stale_cases {peer : Header} (hpeer : peer.IsValid) {stale : List UInt8}
    (hstale : stale <:+ peer.encode) (hne : stale ≠ []) :
    (∃ b rest, stale = b :: rest ∧ b ≠ Command.connect.toByte) ∨
      ∃ order width kind, stale = [Command.connect.toByte, order, width, kind] ∧ order ≠ 0x4c := by
  obtain ⟨version, order, width, kind⟩ := peer
  obtain ⟨hversion, hsupports⟩ := hpeer
  dsimp only at hversion hsupports
  subst hversion
  have hwidth : width ≠ Command.connect.toByte := by
    rintro rfl
    cases kind <;> exact nomatch hsupports
  have horder : ∀ order : Bool, (if order then 1 else 0 : UInt8) ≠ 0x4c ∧
      (if order then 1 else 0 : UInt8) ≠ Command.connect.toByte := by decide
  simp only [encode, magic, List.cons_append, List.nil_append, List.suffix_cons_iff,
    List.suffix_nil, hne, or_false] at hstale
  rcases hstale with rfl | rfl | rfl | rfl | rfl | rfl | rfl | rfl
  · exact .inl ⟨_, _, rfl, by decide⟩
  · exact .inl ⟨_, _, rfl, by decide⟩
  · exact .inl ⟨_, _, rfl, by decide⟩
  · exact .inl ⟨_, _, rfl, by decide⟩
  · exact .inr ⟨_, _, _, rfl, (horder order).1⟩
  · exact .inl ⟨_, _, rfl, (horder order).2⟩
  · exact .inl ⟨_, _, rfl, hwidth⟩
  · refine .inl ⟨_, _, rfl, ?_⟩
    cases kind <;> decide

end Header

/-- No request is shorter than a command byte and a length. -/
theorem Request.five_le_length_bytes {f : Format} (r : Request f) : 5 ≤ r.bytes.length := by
  cases r with
  | frame F sound =>
    have hpath : ∀ p : Payload, 4 ≤ (p.wire f).length := by
      intro p
      rw [Payload.wire, List.length_append, Format.length_wordBytes]
      omega
    cases F with
    | call path args hargs =>
      have := hpath path
      simp only [bytes, body, Frame.body, List.length_cons, List.length_append]
      omega
    | get path =>
      have := hpath path
      simp only [bytes, body, Frame.body, List.length_cons]
      omega
    | set path key value =>
      have := hpath path
      simp only [bytes, body, Frame.body, List.length_cons, List.length_append]
      omega
  | greet header peer valid =>
    have hlength := Header.length_of_decode valid
    simp only [bytes, body, List.length_cons, hlength, headerLength]
    omega

/-- No frame begins like a handshake. -/
theorem Frame.command_ne_connect {f : Format} (F : Frame f) :
    F.command.toByte ≠ Command.connect.toByte := by
  cases F with
  | call path args hlength => exact show Command.call.toByte ≠ _ by decide
  | get path => exact show Command.get.toByte ≠ _ by decide
  | set path key value => exact show Command.set.toByte ≠ _ by decide

namespace Serving

open Session

variable {own f g : Format} {c c' : Connection} {pieces : List (List UInt8)}

/-- What comes of a handshake that was lost in front of these requests: the server fails without
having sent anything, or the first request is a new handshake and the server goes on behind it. -/
def Recovers (rs : Requests own g) (written : List UInt8)
    (outcome : Except Error Unit × Connection) : Prop :=
  (∃ e, outcome.1 = .error e ∧ outcome.2.line.written = written) ∨
  ∃ (header : List UInt8) (peer : Header) (valid : Header.decode header = .ok peer)
    (rest : Requests own (own.reconcile peer)) (pieces : List (List UInt8)),
      rs = .cons (.greet header peer valid) rest ∧ outcome.1 = .ok () ∧
      outcome.2.Serves own (own.reconcile peer) ∧ outcome.2.line.inbound.Paced pieces ∧
      ArriveWhole rest.units pieces ∧
      outcome.2.line.written = written ++ (Header.ofFormat (own.reconcile peer)).encode

variable {rs : Requests own g} {input : Inbound}

/-- The end of the stream is not waited for. -/
theorem recovers_of_end (haccept : acceptHandshake c = (.error .eof, c.withInput input))
    (rounds : Nat) : Recovers rs c.line.written (awaitHandshake (rounds + 1) c) := by
  rw [awaitHandshake_of_error haccept nofun]
  exact .inl ⟨_, rfl, rfl⟩

/-- What is no greeting ends the wait. -/
theorem recovers_of_refusal {fault : HandshakeFault}
    (haccept : acceptHandshake c = (.error (.header fault), c.withInput input)) (rounds : Nat) :
    Recovers rs c.line.written (awaitHandshake (rounds + 1) c) := by
  rw [awaitHandshake_of_error haccept nofun]
  exact .inl ⟨_, rfl, rfl⟩

/-- A server that awaits a handshake in front of requests takes nothing but a new handshake. -/
theorem awaitHandshake_recovers (rs : Requests own g) (hc : c.Serves own f)
    (hwhole : ArriveWhole rs.units pieces) (hin : c.line.inbound.Paced pieces) {rounds : Nat}
    (hrounds : pieces.length ≤ rounds) :
    Recovers rs c.line.written (awaitHandshake rounds c) := by
  generalize hunits : rs.units = units at hwhole
  induction hwhole generalizing c rounds with
  | nil =>
    obtain ⟨rounds, rfl⟩ : ∃ n, rounds = n + 1 := ⟨rounds - 1, by simp at hrounds; omega⟩
    exact recovers_of_end
      (acceptHandshake_breaks hc.openIn.isOpen (.inl rfl) hin.brings_last .ending) rounds
  | @pause units pieces rest ih =>
    rw [List.length_cons] at hrounds
    obtain ⟨rounds, rfl⟩ : ∃ n, rounds = n + 1 := ⟨rounds - 1, by omega⟩
    obtain ⟨later, haccept, hlater⟩ :=
      acceptHandshake_paused hc.openIn.isOpen (.inl rfl) hin rest.ne_nil
    rw [awaitHandshake_of_timeout haccept]
    exact ih (hc.withInput _) hlater (Nat.le_of_succ_le_succ hrounds) hunits
  | @unit u piece units pieces rest ih =>
    obtain ⟨rounds, rfl⟩ : ∃ n, rounds = n + 1 := ⟨rounds - 1, by simp at hrounds; omega⟩
    obtain ⟨after, hbrings, hpaced⟩ := hin.brings
    cases rs with
    | nil => exact absurd hunits.symm (List.cons_ne_nil _ _)
    | cons r rs =>
      rw [Requests.units, List.cons.injEq] at hunits
      obtain ⟨rfl, rfl⟩ := hunits
      cases r with
      | frame F sound =>
        obtain ⟨input, haccept, -⟩ :=
          acceptHandshake_stray hc.openIn.isOpen F.command_ne_connect hbrings
        exact recovers_of_refusal haccept rounds
      | greet header peer valid =>
        have hgreet : c.line.inbound.Brings
            (Command.connect.toByte :: (header ++ piece)) after := hbrings
        obtain ⟨later, haccept, hlater, hnext, hwritten⟩ := acceptHandshake_serves hc valid hgreet
        rw [awaitHandshake_of_ok haccept]
        exact .inr ⟨header, peer, valid, rs, _, rfl, rfl, hlater, hpaced _ _ hnext, rest, hwritten⟩

/-- The last bytes of a header, taken for a greeting, lead to no header: either they are lost in
front of the requests, or the bytes of the first request do not complete one. -/
theorem awaitHandshake_of_late_header (rs : Requests own g) {order width kind : UInt8}
    {q : List UInt8} (horder : order ≠ 0x4c) (hc : c.Serves own f)
    (hwhole : ArriveWhole rs.units (q :: pieces))
    (hin : c.line.inbound.Paced
      (([Command.connect.toByte, order, width, kind] ++ q) :: pieces)) {rounds : Nat}
    (hrounds : pieces.length ≤ rounds) :
    Recovers rs c.line.written (awaitHandshake (rounds + 1) c) := by
  have hshort : [order, width, kind].length < headerLength := show 3 < 8 by decide
  generalize hunits : rs.units = units at hwhole
  cases hwhole with
  | nil =>
    exact recovers_of_end (acceptHandshake_breaks hc.openIn.isOpen (.inr ⟨_, rfl, hshort⟩)
      hin.brings_last .ending) rounds
  | pause rest =>
    obtain ⟨later, haccept, hlater⟩ := acceptHandshake_paused hc.openIn.isOpen
      (.inr ⟨_, rfl, hshort⟩) hin rest.ne_nil
    rw [awaitHandshake_of_timeout haccept]
    rw [← hunits] at rest
    exact awaitHandshake_recovers rs (hc.withInput _) rest hlater hrounds
  | @unit u piece units _ rest =>
    cases rs with
    | nil => exact absurd hunits.symm (List.cons_ne_nil _ _)
    | cons r rs =>
      rw [Requests.units, List.cons.injEq] at hunits
      obtain ⟨rfl, -⟩ := hunits
      obtain ⟨after, hbrings, -⟩ := hin.brings
      have hlength : (order :: width :: kind :: r.bytes.take 5).length = headerLength := by
        have hmin := r.five_le_length_bytes
        simp only [List.length_cons, List.length_take, headerLength]
        omega
      obtain ⟨fault, hfault⟩ : ∃ fault,
          Header.decode (order :: width :: kind :: r.bytes.take 5) = .error (.header fault) :=
        Header.decode_of_ne horder
      have hbytes : [Command.connect.toByte, order, width, kind] ++ (r.bytes ++ piece) =
          Command.connect.toByte ::
            (order :: width :: kind :: r.bytes.take 5 ++ (r.bytes.drop 5 ++ piece)) := by
        simp only [List.cons_append, List.nil_append]
        rw [← List.append_assoc (r.bytes.take 5), List.take_append_drop]
      rw [hbytes] at hbrings
      obtain ⟨input, haccept⟩ :=
        acceptHandshake_malformed hc.openIn.isOpen hlength hfault hbrings
      exact recovers_of_refusal haccept rounds

/-- A server that has lost the beginning of a header fails in the rest of it, or it loses that as
well and takes nothing but a new handshake. -/
theorem awaitHandshake_of_stale (rs : Requests own g) {peer : Header} (hpeer : peer.IsValid)
    {front rest : List (List UInt8)} {p q : List UInt8} (hp : p ≠ [])
    (hstale : front.flatten ++ p <:+ peer.encode) (hc : c.Serves own f)
    (hwhole : ArriveWhole rs.units (q :: rest))
    (hin : c.line.inbound.Paced (front ++ (p ++ q) :: rest)) {rounds : Nat}
    (hrounds : (front ++ (p ++ q) :: rest).length ≤ rounds) :
    Recovers rs c.line.written (awaitHandshake rounds c) := by
  have hne : front.flatten ++ p ≠ [] := List.append_ne_nil_of_right_ne_nil _ hp
  induction front generalizing c rounds with
  | nil =>
    rw [List.nil_append, List.length_cons] at hrounds
    rw [List.flatten_nil, List.nil_append] at hstale hne
    obtain ⟨rounds, rfl⟩ : ∃ n, rounds = n + 1 := ⟨rounds - 1, by omega⟩
    obtain ⟨b, more, rfl, hb⟩ | ⟨order, width, kind, rfl, horder⟩ :=
      Header.stale_cases hpeer hstale hne
    · obtain ⟨after, hbrings, -⟩ := hin.brings
      obtain ⟨input, haccept, -⟩ := acceptHandshake_stray hc.openIn.isOpen hb hbrings
      exact recovers_of_refusal haccept rounds
    · exact awaitHandshake_of_late_header rs horder hc hwhole hin (by omega)
  | cons part front ih =>
    rw [List.cons_append, List.length_cons] at hrounds
    rw [List.flatten_cons, List.append_assoc] at hstale hne
    obtain ⟨rounds, rfl⟩ : ∃ n, rounds = n + 1 := ⟨rounds - 1, by omega⟩
    have hmore : front ++ (p ++ q) :: rest ≠ [] :=
      List.append_ne_nil_of_right_ne_nil _ (List.cons_ne_nil _ _)
    have hleft : front.flatten ++ p <:+ peer.encode := (List.suffix_append _ _).trans hstale
    have hleft_ne : front.flatten ++ p ≠ [] := List.append_ne_nil_of_right_ne_nil _ hp
    by_cases hfirst : BeginsGreeting part
    · obtain ⟨later, haccept, hlater⟩ :=
        acceptHandshake_paused hc.openIn.isOpen hfirst hin hmore
      rw [awaitHandshake_of_timeout haccept]
      exact ih hleft (hc.withInput _) hlater (Nat.le_of_succ_le_succ hrounds) hleft_ne
    · obtain ⟨b, begun, rfl⟩ := List.exists_cons_of_ne_nil fun hempty => hfirst (.inl hempty)
      have hb : b ≠ Command.connect.toByte := by
        rintro rfl
        refine hfirst (.inr ⟨begun, rfl, ?_⟩)
        have hlength := hstale.length_le
        have hpos := List.length_pos_iff.mpr hleft_ne
        simp only [List.cons_append, List.length_cons, List.length_append] at hlength hpos
        simp [Header.encode, magic] at hlength
        simp only [headerLength]
        omega
      obtain ⟨after, hbrings, -⟩ := hin.brings
      obtain ⟨input, haccept, -⟩ := acceptHandshake_stray hc.openIn.isOpen hb hbrings
      exact recovers_of_refusal haccept rounds

/-- A greeting in one piece is accepted after any pauses in front of it. -/
theorem awaitHandshake_of_whole {header q : List UInt8} {peer : Header}
    {front rest : List (List UInt8)} (hheader : Header.decode header = .ok peer)
    (hfront : front.flatten = []) (hc : c.Serves own f)
    (hin : c.line.inbound.Paced (front ++ (Command.connect.toByte :: header ++ q) :: rest))
    {rounds : Nat} (hrounds : front.length < rounds) :
    ∃ later, awaitHandshake rounds c = (.ok (), later) ∧ later.Serves own (own.reconcile peer) ∧
      later.line.inbound.Paced (q :: rest) ∧
      later.line.written = c.line.written ++ (Header.ofFormat (own.reconcile peer)).encode := by
  induction front generalizing c rounds with
  | nil =>
    obtain ⟨rounds, rfl⟩ : ∃ n, rounds = n + 1 := ⟨rounds - 1, by omega⟩
    obtain ⟨after, hbrings, hpaced⟩ := hin.brings
    obtain ⟨later, haccept, hlater, hnext, hwritten⟩ :=
      acceptHandshake_serves hc hheader hbrings
    exact ⟨later, awaitHandshake_of_ok haccept rounds, hlater, hpaced _ _ hnext, hwritten⟩
  | cons part front ih =>
    obtain ⟨rfl, hfront⟩ := List.append_eq_nil_iff.mp hfront
    rw [List.length_cons] at hrounds
    obtain ⟨rounds, rfl⟩ : ∃ n, rounds = n + 1 := ⟨rounds - 1, by omega⟩
    obtain ⟨input, haccept, hnext⟩ := acceptHandshake_paused hc.openIn.isOpen (.inl rfl) hin
      (List.append_ne_nil_of_right_ne_nil _ (List.cons_ne_nil _ _))
    rw [awaitHandshake_of_timeout haccept]
    exact ih hfront (hc.withInput _) hnext (by omega)

/-- A greeting with pauses anywhere in it is accepted as a whole, or it is lost. -/
theorem awaitHandshake_of_pieces {peer : Header} (rs : Requests own g) (hpeer : peer.IsValid)
    {front rest : List (List UInt8)} {p q : List UInt8} (hp : p ≠ [])
    (hgreeting : front.flatten ++ p = Command.connect.toByte :: peer.encode)
    (hc : c.Serves own f) (hwhole : ArriveWhole rs.units (q :: rest))
    (hin : c.line.inbound.Paced (front ++ (p ++ q) :: rest)) {rounds : Nat}
    (hrounds : (front ++ (p ++ q) :: rest).length ≤ rounds) :
    (∃ later, awaitHandshake rounds c = (.ok (), later) ∧ later.Serves own (own.reconcile peer) ∧
      later.line.inbound.Paced (q :: rest) ∧
      later.line.written = c.line.written ++ (Header.ofFormat (own.reconcile peer)).encode) ∨
    Recovers rs c.line.written (awaitHandshake rounds c) := by
  induction front generalizing c rounds with
  | nil =>
    left
    rw [List.flatten_nil, List.nil_append] at hgreeting
    rw [List.nil_append, List.length_cons] at hrounds
    subst hgreeting
    exact awaitHandshake_of_whole (Header.decode_encode hpeer) List.flatten_nil hc hin
      (Nat.lt_of_lt_of_le (Nat.succ_pos _) hrounds)
  | cons part front ih =>
    rw [List.cons_append, List.length_cons] at hrounds
    obtain ⟨rounds, rfl⟩ : ∃ n, rounds = n + 1 := ⟨rounds - 1, by omega⟩
    have hmore : front ++ (p ++ q) :: rest ≠ [] :=
      List.append_ne_nil_of_right_ne_nil _ (List.cons_ne_nil _ _)
    rw [List.flatten_cons, List.append_assoc] at hgreeting
    cases part with
    | nil =>
      obtain ⟨input, haccept, hnext⟩ :=
        acceptHandshake_paused hc.openIn.isOpen (.inl rfl) hin hmore
      rw [awaitHandshake_of_timeout haccept]
      exact ih hgreeting (hc.withInput _) hnext (Nat.le_of_succ_le_succ hrounds)
    | cons b begun =>
      right
      rw [List.cons_append, List.cons.injEq] at hgreeting
      obtain ⟨rfl, hheader⟩ := hgreeting
      have hshort : begun.length < headerLength := by
        have hlength := congrArg List.length hheader
        have hpos := List.length_pos_iff.mpr hp
        rw [Header.length_of_decode (Header.decode_encode hpeer)] at hlength
        simp only [List.length_append] at hlength
        omega
      obtain ⟨input, haccept, hnext⟩ :=
        acceptHandshake_paused hc.openIn.isOpen (.inr ⟨begun, rfl, hshort⟩) hin hmore
      rw [awaitHandshake_of_timeout haccept]
      exact awaitHandshake_of_stale rs hpeer hp ⟨begun, hheader⟩ (hc.withInput _) hwhole hnext
        (Nat.le_of_succ_le_succ hrounds)

variable {h : Host σ} {s : Served σ} {header : List UInt8} {peer : Header}

/-- Where the greeting and the requests arrive whole, everything is served as without a pause. -/
theorem serve_of_arriveWhole (h : Host σ) (rs : Requests own (own.reconcile peer))
    (hs : s.conn.Serves own f) (hheader : Header.decode header = .ok peer)
    (hwhole : ArriveWhole ((Command.connect.toByte :: header) :: rs.units) pieces)
    (hin : s.conn.line.inbound.Paced pieces) :
    ∃ t, serve h s = (.ok (), t) ∧ t.host = rs.effect h s.host ∧
      t.conn.line.written = s.conn.line.written ++
        ((Header.ofFormat (own.reconcile peer)).encode ++ rs.answered h s.host) := by
  obtain ⟨front, q, rest, hfront, rfl, hunits⟩ := hwhole.exists_first
  have hsize := hin.length_le_size
  have hrounds : front.length < s.conn.rounds := by
    rw [List.length_append, List.length_cons] at hsize
    rw [Connection.rounds]
    omega
  obtain ⟨c, hawait, hc, hrest, hanswer⟩ :=
    awaitHandshake_of_whole hheader hfront hs hin hrounds
  obtain ⟨t, hrun, hhost, hwritten⟩ :=
    serveRequests_rounds (s := ⟨c, s.host⟩) h rs hc hunits hrest
  refine ⟨t, (serve_of_await hawait).trans hrun, hhost, ?_⟩
  rw [hwritten, hanswer, List.append_assoc]

end Serving

open Serving

/-- What timeouts do to a server. While the greeting and every request arrive whole, however many
timeouts there are between them, the run is the same as without timeouts. Where a timeout falls
inside a request, the loop comes to begin a round inside a request. Timeouts inside the greeting of
a peer are harmless for what follows: either everything is carried out as without them, or the
server fails before it has done or sent anything. -/
theorem serve_timeouts (h : Host σ) (s : Served σ) {own f : Format} {header : List UInt8}
    {peer : Header} (rs : Requests own (own.reconcile peer)) {pieces : List (List UInt8)}
    {calm : Inbound} (hs : s.conn.Serves own f) (hheader : Header.decode header = .ok peer)
    (hin : s.conn.line.inbound.Paced pieces)
    (hcalm : calm.Brings (Command.connect.toByte :: (header ++ rs.bytes)) []) :
    (ArriveWhole ((Command.connect.toByte :: header) :: rs.units) pieces →
      (serve h s).1 = (serve h ⟨s.conn.withInput calm, s.host⟩).1 ∧
      (serve h s).2.host = (serve h ⟨s.conn.withInput calm, s.host⟩).2.host ∧
      (serve h s).2.conn.line.written =
        (serve h ⟨s.conn.withInput calm, s.host⟩).2.conn.line.written) ∧
    (ArriveWhole ((Command.connect.toByte :: header) :: rs.bytes.map ([·])) pieces →
      ¬ ArriveWhole ((Command.connect.toByte :: header) :: rs.units) pieces →
      ∃ c, awaitHandshake s.conn.rounds s.conn = (.ok (), c) ∧ BreaksInto h ⟨c, s.host⟩) ∧
    (header = peer.encode →
      ArriveWhole ((Command.connect.toByte :: header).map ([·]) ++ rs.units) pieces →
      (serve h s).1 = .ok () ∧
        (serve h s).2.host = (serve h ⟨s.conn.withInput calm, s.host⟩).2.host ∧
        ((serve h s).2.conn.line.written =
            (serve h ⟨s.conn.withInput calm, s.host⟩).2.conn.line.written ∨
          (serve h s).2.conn.line.written = s.conn.line.written ++ rs.answered h s.host) ∨
      (∃ e, (serve h s).1 = .error e) ∧ (serve h s).2.host = s.host ∧
        (serve h s).2.conn.line.written = s.conn.line.written) := by
  have hcalm_whole : ArriveWhole ((Command.connect.toByte :: header) :: rs.units)
      [Command.connect.toByte :: (header ++ rs.bytes)] := by
    have hwhole := ArriveWhole.of_flatten ((Command.connect.toByte :: header) :: rs.units)
    rwa [List.flatten_cons, rs.flatten_units] at hwhole
  obtain ⟨t, hrun, hhost, hwritten⟩ := serve_of_arriveWhole
    (s := ⟨s.conn.withInput calm, s.host⟩) h rs (hs.withInput calm) hheader hcalm_whole
    (.last hcalm)
  rw [hrun]
  refine ⟨fun hwhole => ?_, fun hgreeted hcut => ?_, fun hstandard hwhole => ?_⟩
  · obtain ⟨u, hrun', hhost', hwritten'⟩ := serve_of_arriveWhole h rs hs hheader hwhole hin
    rw [hrun']
    exact ⟨rfl, hhost'.trans hhost.symm, hwritten'.trans hwritten.symm⟩
  · obtain ⟨front, q, rest, hfront, rfl, hbytes⟩ := hgreeted.exists_first
    have hsize := hin.length_le_size
    have hrounds : front.length < s.conn.rounds := by
      rw [List.length_append, List.length_cons] at hsize
      rw [Connection.rounds]
      omega
    obtain ⟨c, hawait, hc, hrest, -⟩ := awaitHandshake_of_whole hheader hfront hs hin hrounds
    have hflat : (q :: rest).flatten = rs.bytes := by
      rw [hbytes.flatten_eq, ← List.flatMap_def, List.flatMap_singleton']
    refine ⟨c, hawait, ?_⟩
    apply breaksInto_of_not_arriveWhole (s := ⟨c, s.host⟩) h rs hc hrest hflat
    intro hunits
    exact hcut ((ArriveWhole.unit hunits).idle hfront)
  · subst hstandard
    obtain ⟨front, p, q, rest, hp, hgreeting, rfl, hunits⟩ :=
      hwhole.exists_bytes (List.cons_ne_nil _ _)
    have hsize := hin.length_le_size
    have hrounds : (front ++ (p ++ q) :: rest).length ≤ s.conn.rounds := by
      rw [Connection.rounds]
      omega
    obtain ⟨c, hawait, hc, hrest, hanswer⟩ | ⟨e, herror, hsent⟩ |
        ⟨header, peer', valid, requests, later, rfl, hok, hc, hrest, hlater, hanswer⟩ :=
      awaitHandshake_of_pieces rs (Header.isValid_of_decode hheader) hp hgreeting hs hunits hin
        hrounds
    · left
      obtain ⟨u, hserve, huhost, hsent⟩ :=
        serveRequests_rounds (s := ⟨c, s.host⟩) h rs hc hunits hrest
      rw [serve_of_await hawait, hserve]
      refine ⟨rfl, huhost.trans hhost.symm, .inl ?_⟩
      rw [hsent, hanswer, hwritten, List.append_assoc]
      rfl
    · right
      have hawait : awaitHandshake s.conn.rounds s.conn =
          (.error e, (awaitHandshake s.conn.rounds s.conn).2) := Prod.ext herror rfl
      rw [serve_of_await_error hawait]
      exact ⟨⟨e, rfl⟩, rfl, hsent⟩
    · left
      have hawait : awaitHandshake s.conn.rounds s.conn =
          (.ok (), (awaitHandshake s.conn.rounds s.conn).2) := Prod.ext hok rfl
      obtain ⟨u, hserve, huhost, hsent⟩ :=
        serveRequests_rounds (s := ⟨_, s.host⟩) h requests hc hlater hrest
      rw [serve_of_await hawait, hserve]
      refine ⟨rfl, huhost.trans hhost.symm, .inr ?_⟩
      rw [hsent, hanswer, List.append_assoc]
      rfl

/-- A recording server whose reads time out once, between these bytes. -/
def interrupted (first second : List UInt8) : Served (List String) :=
  ⟨.ofLine { inbound := ⟨[], [.chunk first, .fault (.plain .timedOut), .chunk second]⟩ } .host, []⟩

/-- The interrupted server is sent two pieces with a pause between them. -/
theorem paced_interrupted (first second : List UInt8) (hfirst : first ≠ [])
    (hsecond : second ≠ []) :
    (interrupted first second).conn.line.inbound.Paced [first, second] := by
  have hbrings : ∀ (bytes : List UInt8) (after : List Arrival), bytes ≠ [] →
      Inbound.Brings ⟨[], .chunk bytes :: after⟩ bytes after := fun bytes after hne =>
    ⟨[bytes], by simpa using hne, rfl, List.append_nil bytes⟩
  exact .pause (hbrings _ _ hfirst) rfl (.last (hbrings _ _ hsecond))

/-- The interrupted server serves in the format of its host. -/
theorem serves_interrupted (first second : List UInt8) :
    (interrupted first second).conn.Serves .host .host :=
  ⟨⟨rfl, rfl⟩, rfl, rfl⟩

/-- The orderly assignment alone. -/
def onlyOrderly : Requests .host .host := .cons (.frame orderly orderly_sound) .nil

/-- Before the orderly assignment a timeout changes nothing, inside it the loop loses its way, and
inside the greeting it costs the connection. -/
theorem serve_timeouts_orderly :
    (serve recorder (interrupted greeting orderly.bytes)).2.host = [""] ∧
    (∃ c, awaitHandshake (interrupted (greeting ++ begun) (orderly.bytes.drop 5)).conn.rounds
        (interrupted (greeting ++ begun) (orderly.bytes.drop 5)).conn = (.ok (), c) ∧
      BreaksInto recorder ⟨c, []⟩) ∧
    (serve recorder (interrupted (greeting.take 1) (greeting.drop 1 ++ orderly.bytes))).2.host =
      [] := by
  have hcalm := Inbound.brings_ofBytes (greeting ++ onlyOrderly.bytes)
  have horderly : ArriveWhole [orderly.bytes] [orderly.bytes] := .of_flatten [orderly.bytes]
  refine ⟨?_, ?_, ?_⟩
  · have hwhole : ArriveWhole (greeting :: onlyOrderly.units) [greeting, orderly.bytes] :=
      @ArriveWhole.unit greeting [] _ _ (.pause horderly)
    have hpaced := paced_interrupted greeting orderly.bytes nofun nofun
    obtain ⟨hsame, -⟩ := @serve_timeouts _ recorder _ .host .host _ (.ofFormat .host) onlyOrderly _
      _ (serves_interrupted _ _) rfl hpaced hcalm
    rw [(hsame hwhole).2.1]
    decide +kernel
  · have hrest : [begun, orderly.bytes.drop 5] ≠ [] := List.cons_ne_nil _ _
    have hbytes : ArriveWhole (greeting :: onlyOrderly.bytes.map ([·]))
        [greeting ++ begun, orderly.bytes.drop 5] := .unit (.of_bytes hrest)
    have hcut : ¬ ArriveWhole (greeting :: onlyOrderly.units)
        [greeting ++ begun, orderly.bytes.drop 5] := by
      intro hwhole
      obtain ⟨q, hq, hunits⟩ := hwhole.of_cons nofun
      obtain rfl := List.append_cancel_left hq
      obtain ⟨q, hbegun, -⟩ := hunits.of_cons nofun
      have hlength : begun.length = orderly.bytes.length + q.length :=
        (congrArg List.length hbegun).trans List.length_append
      have hless : begun.length < orderly.bytes.length := by decide +kernel
      omega
    have hpaced := paced_interrupted (greeting ++ begun) (orderly.bytes.drop 5) nofun nofun
    obtain ⟨-, hbreaks, -⟩ := @serve_timeouts _ recorder _ .host .host _ (.ofFormat .host)
      onlyOrderly _ _ (serves_interrupted _ _) rfl hpaced hcalm
    exact hbreaks hbytes hcut
  · have hwhole : ArriveWhole (greeting.map ([·]) ++ onlyOrderly.units)
        [greeting.take 1, greeting.drop 1 ++ orderly.bytes] := by
      have hrest : ArriveWhole ((greeting.drop 1).map ([·]) ++ onlyOrderly.units)
          [greeting.drop 1 ++ orderly.bytes] :=
        .of_flatten ((greeting.drop 1).map ([·]) ++ onlyOrderly.units)
      exact @ArriveWhole.unit (greeting.take 1) [] _ _ (.pause hrest)
    have hpaced :=
      paced_interrupted (greeting.take 1) (greeting.drop 1 ++ orderly.bytes) nofun nofun
    obtain ⟨-, -, hsafe⟩ := @serve_timeouts _ recorder _ .host .host _ (.ofFormat .host)
      onlyOrderly _ _ (serves_interrupted _ _) rfl hpaced hcalm
    rcases hsafe rfl hwhole with ⟨hok, -⟩ | ⟨-, hhost, -⟩
    · exact absurd (congrArg Except.isOk hok) (by decide +kernel)
    · exact hhost

/-- An assignment whose key looks like an assignment to another path. -/
def disguise : Frame .host :=
  .set .empty (.string ⟨[4, 5, 0, 0, 0] ++ Text.bytes "pwned" ++ [0, 0], by decide⟩) .nil

/-- The assignment arrives, with a timeout before what stands in its key. -/
def betrayed : Served (List String) :=
  interrupted (greeting ++ disguise.bytes.take 10) (disguise.bytes.drop 10)

/-- When the key times out the loop carries out what stands in it: the host is asked for an
assignment that the peer did not send. -/
theorem serve_timeout_invents :
    (serve recorder (recording (greeting ++ disguise.bytes))).2.host = [""] ∧
    (serve recorder betrayed).2.host = ["pwned"] := by
  decide +kernel

end RemoteCall
