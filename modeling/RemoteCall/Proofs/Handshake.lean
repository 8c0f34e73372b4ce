import RemoteCall.Proofs.Conversation

/-!
# Handshakes

A header is read back from its bytes. A server that gets through the handshake has taken the command
byte and the header off the line and nothing else, and the format that it has settled on is in
effect. A client has sent its greeting when it begins to wait, and has the format of the header that
answers it in effect.
-/

namespace RemoteCall

namespace Header

/-- The header is one that this version accepts. -/
def IsValid (h : Header) : Prop :=
  h.version = protocolVersion ∧ Format.supports h.kind h.width = true

/-- The header of a supported format is valid. -/
theorem isValid_ofFormat {f : Format} (hf : f.isSupported = true) : (ofFormat f).IsValid :=
  ⟨rfl, hf⟩

/-- A valid header is read back from its bytes. -/
theorem decode_encode {h : Header} (hh : h.IsValid) : decode h.encode = .ok h := by
  obtain ⟨version, order, width, kind⟩ := h
  obtain ⟨hversion, hsupports⟩ := hh
  dsimp only at hversion hsupports
  subst hversion
  simp only [encode, magic, List.cons_append, List.nil_append, decode, ne_eq, not_true_eq_false,
    ↓reduceIte, NumberKind.ofByte?_toByte, hsupports]
  cases order <;> rfl

/-- Only a header of eight bytes is accepted. -/
theorem length_of_decode {bytes : List UInt8} {peer : Header} (h : decode bytes = .ok peer) :
    bytes.length = headerLength := by
  unfold decode at h
  split at h
  · rfl
  · exact nomatch h

/-- A header that is decoded is valid. -/
theorem isValid_of_decode {bytes : List UInt8} {peer : Header} (h : decode bytes = .ok peer) :
    peer.IsValid := by
  unfold decode at h
  split at h
  · split at h
    · exact nomatch h
    · split at h
      · exact nomatch h
      · rename_i hversion
        split at h
        · exact nomatch h
        · split at h
          · rename_i hsupports
            cases h
            exact ⟨Classical.not_not.mp hversion, hsupports⟩
          · exact nomatch h
  · exact nomatch h

/-- Nothing but a fault of the handshake is wrong with a header. -/
theorem exists_fault_of_decode {bytes : List UInt8} {e : Error} (h : decode bytes = .error e) :
    ∃ fault, e = .header fault := by
  unfold decode at h
  split at h
  · split at h
    · exact ⟨_, (Except.error.inj h).symm⟩
    · split at h
      · exact ⟨_, (Except.error.inj h).symm⟩
      · split at h
        · exact ⟨_, (Except.error.inj h).symm⟩
        · split at h
          · exact nomatch h
          · exact ⟨_, (Except.error.inj h).symm⟩
  · exact ⟨_, (Except.error.inj h).symm⟩

end Header

/-- A format settled between a supported one and a valid header is supported. -/
theorem Format.isSupported_reconcile {own : Format} {peer : Header} (hown : own.isSupported = true)
    (hpeer : peer.IsValid) : (own.reconcile peer).isSupported = true := by
  obtain ⟨ownOrder, ownWidth, ownKind⟩ := own
  obtain ⟨version, peerOrder, peerWidth, peerKind⟩ := peer
  obtain ⟨-, hsupports⟩ := hpeer
  have hwidths : ∀ kind width, supports kind width = true → supports .integer width = true := by
    intro kind width h
    cases kind with
    | integer => exact h
    | float =>
      simp only [supports, Bool.or_eq_true, decide_eq_true_eq] at h ⊢
      rcases h with h | h
      · exact .inl (.inr h)
      · exact .inr h
  have hmin : supports (if peerKind = ownKind then ownKind else .integer)
      (if ownWidth ≤ peerWidth then ownWidth else peerWidth) = true := by
    by_cases hkind : peerKind = ownKind
    · subst hkind
      rw [if_pos rfl]
      split
      · exact hown
      · exact hsupports
    · rw [if_neg hkind]
      split
      · exact hwidths _ _ hown
      · exact hwidths _ _ hsupports
  exact hmin

namespace Session

variable {c c' : Connection} {header rest : List UInt8} {peer : Header} {after : List Arrival}

/-- The answer of a server to a valid header. -/
def settle (agreed : Format) : Session Unit := do
  send fun _ => .ofBytes (Header.ofFormat agreed).encode
  flush
  adopt agreed

/-- A server that reads a valid header settles on a format. -/
theorem negotiateServer_run (hopen : c.isOpen = true) (hheader : Header.decode header = .ok peer)
    (hin : c.line.inbound.Brings (header ++ rest) after) :
    ∃ later, later.Brings rest after ∧
      negotiateServer c = settle (c.native.reconcile peer) (c.withInput later) := by
  have htake : (Reader.take headerLength).Follows header (.done header) := by
    rw [← Header.length_of_decode hheader]
    exact Reader.follows_take header
  obtain ⟨later, hread, hlater⟩ :=
    receive_follows (fun _ => Reader.take headerLength) hopen htake hin
  refine ⟨later, hlater, ?_⟩
  rw [negotiateServer, bind_of_ok hread, hheader]
  rfl

/-- Behind the command byte a handshake goes on as on a connection in use. -/
theorem acceptHandshake_of_connect (hopen : c.isOpen = true)
    (hin : c.line.inbound.Brings (Command.connect.toByte :: rest) after) :
    ∃ later, later.Brings rest after ∧ acceptHandshake c = negotiateServer (c.withInput later) := by
  have hfirst : c.line.inbound.Brings ([Command.connect.toByte] ++ rest) after := hin
  obtain ⟨later, hbyte, hlater⟩ :=
    receive_follows (fun _ => Reader.byte) hopen (Reader.follows_byte Command.connect.toByte) hfirst
  have hread : readByte c = (.ok Command.connect.toByte, c.withInput later) := hbyte
  refine ⟨later, hlater, ?_⟩
  rw [acceptHandshake, bind_of_ok hread]
  simp only [ne_eq, not_true_eq_false, ↓reduceIte]

/-- A server that is greeted with a valid header settles on a format. -/
theorem acceptHandshake_run (hopen : c.isOpen = true) (hheader : Header.decode header = .ok peer)
    (hin : c.line.inbound.Brings (Command.connect.toByte :: (header ++ rest)) after) :
    ∃ later, later.Brings rest after ∧
      acceptHandshake c = settle (c.native.reconcile peer) (c.withInput later) := by
  obtain ⟨middle, hmiddle, haccept⟩ := acceptHandshake_of_connect hopen hin
  obtain ⟨later, hlater, hnegotiate⟩ :=
    negotiateServer_run (c := c.withInput middle) hopen hheader hmiddle
  exact ⟨later, hlater, haccept.trans hnegotiate⟩

/-- To settle is to send the header, to flush and to adopt the format. -/
theorem settle_eq (agreed : Format) :
    settle agreed =
      (send (fun _ => .ofBytes (Header.ofFormat agreed).encode) >>= fun _ => flush) >>= fun _ =>
        adopt agreed := by
  rw [bind_assoc]
  rfl

/-- On a line that takes everything the settled format is announced and put into effect. -/
theorem settle_serves {own f : Format} (agreed : Format) (hc : c.Serves own f) :
    ∃ later, settle agreed c = (.ok (), later) ∧ later.Serves own agreed ∧
      later.line.inbound = c.line.inbound ∧
      later.line.written = c.line.written ++ (Header.ofFormat agreed).encode := by
  have hsend : Emits f (send (fun _ => .ofBytes (Header.ofFormat agreed).encode) >>= fun _ => flush)
      (.ofBytes (Header.ofFormat agreed).encode) := (emits_send _).bind_flush
  obtain ⟨later, hrun, hsame, hwritten⟩ := hsend c hc.openIn hc.free
  have hlater := hc.of_incoming hsame
  have hinbound := Connection.inbound_of_incoming hsame
  refine ⟨{ later with format := agreed }, ?_,
    ⟨⟨hlater.openIn.isOpen, rfl⟩, hlater.native_eq, hlater.free⟩, hinbound, hwritten⟩
  rw [settle_eq, bind_of_ok hrun]
  rfl

/-- A settled format leaves what follows the header on the line. -/
theorem settle_does {f : Format} (agreed : Format) (hc : c.OpenIn f)
    (hfree : c.line.intake = .free) (hin : c.line.inbound.Brings rest after) :
    ∃ later, settle agreed c = (.ok (), later) ∧ later.OpenIn agreed ∧
      later.line.intake = .free ∧ later.line.inbound.Brings rest after ∧
      later.line.written = c.line.written ++ (Header.ofFormat agreed).encode := by
  obtain ⟨later, hrun, hlater, hinbound, hwritten⟩ := settle_serves agreed ⟨hc, rfl, hfree⟩
  refine ⟨later, hrun, hlater.openIn, hlater.free, ?_, hwritten⟩
  rw [hinbound]
  exact hin

/-- On a line that takes everything a server that is greeted with a valid header answers it and has
the settled format in effect. -/
theorem acceptHandshake_serves {own f : Format} (hc : c.Serves own f)
    (hheader : Header.decode header = .ok peer)
    (hin : c.line.inbound.Brings (Command.connect.toByte :: (header ++ rest)) after) :
    ∃ later, acceptHandshake c = (.ok (), later) ∧ later.Serves own (own.reconcile peer) ∧
      later.line.inbound.Brings rest after ∧
      later.line.written =
        c.line.written ++ (Header.ofFormat (own.reconcile peer)).encode := by
  obtain ⟨input, hinput, hrun⟩ := acceptHandshake_run hc.openIn.isOpen hheader hin
  rw [hc.native_eq] at hrun
  obtain ⟨later, hsettle, hlater, hinbound, hwritten⟩ :=
    settle_serves (own.reconcile peer) (hc.withInput input)
  refine ⟨later, hrun.trans hsettle, hlater, ?_, hwritten⟩
  rw [hinbound]
  exact hinput

/-- A server that has settled has the format in effect and is at the end of the header. -/
theorem settle_ok {agreed : Format} (hopen : c.isOpen = true)
    (hok : settle agreed c = (.ok (), c')) :
    c'.OpenIn agreed ∧ c'.line.inbound = c.line.inbound ∧ c'.line.intake = c.line.intake ∧
      c'.native = c.native := by
  have hkeeps : Keeps Connection.incoming
      (send (fun _ => .ofBytes (Header.ofFormat agreed).encode) >>= fun _ => flush) :=
    (send_keeps _).bind fun _ => flush_keeps
  have h := hkeeps c
  rw [settle_eq] at hok
  cases hrun : (send (fun _ => .ofBytes (Header.ofFormat agreed).encode) >>= fun _ => flush) c with
  | mk result later =>
    rw [hrun] at h
    cases result with
    | error e =>
      rw [bind_of_error hrun] at hok
      exact nomatch hok
    | ok u =>
      rw [bind_of_ok hrun] at hok
      cases hok
      simp only [Connection.incoming, Prod.mk.injEq] at h
      exact ⟨⟨h.1.trans hopen, rfl⟩, h.2.2.2.2, h.2.2.2.1, h.2.1⟩

/-! ### The client's side -/

section

variable {f agreed : Format} {c : Connection} {rest : List UInt8} {after : List Arrival}

/-- The bytes with which a client of this format opens a connection. -/
def greetingBytes (own : Format) : List UInt8 :=
  Command.connect.toByte :: (Header.ofFormat own).encode

/-- A client's greeting. -/
def announce (own : Format) : Session Unit := do
  send fun _ => .byte Command.connect.toByte
  send fun _ => .ofBytes (Header.ofFormat own).encode
  flush

/-- The header that answers a greeting. -/
def awaitHeader : Session (List UInt8) := receive fun _ => Reader.take headerLength

/-- What a client makes of the header that answers it. -/
def conclude (reply : List UInt8) : Session Unit :=
  match Header.decode reply with
  | .ok agreed => adopt agreed.format
  | .error e => do
    close
    throw e

/-- On an open connection a client greets, awaits a header and concludes from it. -/
theorem negotiateClient_run (hopen : c.isOpen = true) :
    negotiateClient c = (announce c.native >>= fun _ => awaitHeader >>= conclude) c := by
  rw [negotiateClient, bind_of_ok (requireOpen_run hopen), bind_of_ok get_run, announce]
  simp only [bind_assoc]
  rfl

/-- A client sends its command and its header, and reads nothing for it. -/
theorem announce_does (own : Format) :
    Does f (announce own) [] (.ok ()) (greetingBytes own) := by
  have hbyte : Does f (send fun _ => .byte Command.connect.toByte) [] (.ok ())
      [Command.connect.toByte] := does_send (fun _ => .byte Command.connect.toByte) rfl
  have hheader : Does f (send fun _ => .ofBytes (Header.ofFormat own).encode) [] (.ok ())
      (Header.ofFormat own).encode := does_send (fun _ => .ofBytes (Header.ofFormat own).encode) rfl
  exact hbyte.bind_sent (hheader.bind_answer does_flush)

/-- A header is read whole. -/
theorem awaitHeader_does (header : Header) :
    Does f awaitHeader header.encode (.ok header.encode) [] :=
  does_receive (fun _ => Reader.take headerLength) (Reader.follows_take _)

/-- Without an answer a client has sent its greeting. -/
theorem negotiateClient_stalls {e : Error} {left : List Arrival} (hc : c.OpenIn f)
    (hfree : c.line.intake = .free) (hin : c.line.inbound.Brings [] after)
    (hmeets : Inbound.Meets after e left) :
    ∃ later, negotiateClient c = (.error e, later) ∧
      later.line.written = c.line.written ++ greetingBytes c.native := by
  have hwait : Stalls f awaitHeader [] [] :=
    stalls_receive (fun _ => Reader.take headerLength) (Reader.breaks_take (by decide))
  have hstalls : Stalls f (announce c.native >>= fun _ => awaitHeader >>= conclude) []
      (greetingBytes c.native) := (announce_does c.native).bind_waits hwait.bind
  obtain ⟨later, hrun, -, hwritten⟩ := hstalls c after e left hc hfree hin hmeets
  exact ⟨later, (negotiateClient_run hc.isOpen).trans hrun, hwritten⟩

/-- A client that is answered with a header has the format of the header in effect. -/
theorem negotiateClient_does (hagreed : agreed.isSupported = true) (hc : c.OpenIn f)
    (hfree : c.line.intake = .free)
    (hin : c.line.inbound.Brings ((Header.ofFormat agreed).encode ++ rest) after) :
    ∃ later, negotiateClient c = (.ok (), later) ∧ later.OpenIn agreed ∧
      later.line.intake = .free ∧ later.line.inbound.Brings rest after ∧
      later.line.written = c.line.written ++ greetingBytes c.native := by
  have hheader : Does f (announce c.native >>= fun _ => awaitHeader)
      (Header.ofFormat agreed).encode (.ok (Header.ofFormat agreed).encode)
      (greetingBytes c.native) :=
    (announce_does c.native).bind_answer (awaitHeader_does (Header.ofFormat agreed))
  obtain ⟨later, hrun, hlater, hlfree, hrest, hwritten⟩ := hheader c rest after hc hfree hin
  have hassoc : (announce c.native >>= fun _ => awaitHeader >>= conclude) =
      (announce c.native >>= fun _ => awaitHeader) >>= conclude := (bind_assoc ..).symm
  have hdecode : conclude (Header.ofFormat agreed).encode = adopt agreed := by
    rw [conclude, Header.decode_encode (Header.isValid_ofFormat hagreed)]
    rfl
  refine ⟨{ later with format := agreed }, ?_, ⟨hlater.isOpen, rfl⟩, hlfree, hrest, hwritten⟩
  rw [negotiateClient_run hc.isOpen, hassoc, bind_of_ok hrun, hdecode]
  rfl

end

end Session

end RemoteCall
