import RemoteCall.Proofs.Serve.Timeouts

/-!
# Greetings of any form

What a server makes of bytes that should be a greeting, whatever they are. A header has to pass four
checks in a row, behind a first byte that has to be the command. A stream that passes them all is
answered with the settled format, and what follows it stays on the line. Any other stream is refused
for the first check that fails, or comes to its end before there is a header to check; then nothing
is sent and the formats stay as they were. A greeting in the middle of a connection fares alike.
-/

namespace RemoteCall

/-- The byte of a number kind is the one that it is recognised by. -/
theorem NumberKind.toByte_of_ofByte? {b : UInt8} {k : NumberKind} (h : ofByte? b = some k) :
    k.toByte = b := by
  unfold ofByte? at h
  split at h
  · cases h
    exact Eq.symm ‹_›
  · split at h
    · cases h
      exact Eq.symm ‹_›
    · exact nomatch h

namespace Header

/-- The eight bytes of a header of this version. Any order byte will do. -/
def announcement (order width : UInt8) (kind : NumberKind) : List UInt8 :=
  magic ++ [protocolVersion, order, width, kind.toByte]

/-- The header that these eight bytes announce. -/
def announced (order width : UInt8) (kind : NumberKind) : Header :=
  ⟨protocolVersion, order ≠ 0, width, kind⟩

/-- What is wrong with the eight bytes of a header. Only the first fault counts. -/
inductive Faulty : List UInt8 → HandshakeFault → Prop where
  | magic {m₀ m₁ m₂ m₃ : UInt8} (version order width kind : UInt8)
      (other : [m₀, m₁, m₂, m₃] ≠ magic) :
      Faulty [m₀, m₁, m₂, m₃, version, order, width, kind] (.badMagic [m₀, m₁, m₂, m₃])
  | version {version : UInt8} (order width kind : UInt8) (other : version ≠ protocolVersion) :
      Faulty (RemoteCall.magic ++ [version, order, width, kind]) (.version version protocolVersion)
  | kind (order width : UInt8) {kind : UInt8} (unknown : NumberKind.ofByte? kind = none) :
      Faulty (RemoteCall.magic ++ [protocolVersion, order, width, kind]) (.unknownKind kind)
  | width (order : UInt8) {width : UInt8} {kind : NumberKind}
      (unsupported : Format.supports kind width = false) :
      Faulty (announcement order width kind) (.width kind width)

/-- What has a fault as a header has its length. -/
theorem Faulty.length_eq {bytes : List UInt8} {fault : HandshakeFault} (h : Faulty bytes fault) :
    bytes.length = headerLength := by
  cases h <;> rfl

/-- Eight bytes of this version with a supported format are decoded as what they announce. -/
theorem decode_announcement (order : UInt8) {width : UInt8} {kind : NumberKind}
    (h : Format.supports kind width = true) :
    decode (announcement order width kind) = .ok (announced order width kind) := by
  simp only [announcement, announced, RemoteCall.magic, List.cons_append, List.nil_append, decode,
    ne_eq, not_true_eq_false, ↓reduceIte, NumberKind.ofByte?_toByte, h]

/-- A fault of a header is what decoding it fails with. -/
theorem Faulty.decode_eq {bytes : List UInt8} {fault : HandshakeFault} (h : Faulty bytes fault) :
    decode bytes = .error (.header fault) := by
  cases h with
  | magic version order width kind other =>
    simp only [decode, ne_eq, other, not_false_eq_true, ↓reduceIte]
  | version order width kind other =>
    simp only [RemoteCall.magic, List.cons_append, List.nil_append, decode, ne_eq,
      not_true_eq_false, ↓reduceIte, other, not_false_eq_true]
  | kind order width unknown =>
    simp only [RemoteCall.magic, List.cons_append, List.nil_append, decode, ne_eq,
      not_true_eq_false, ↓reduceIte, unknown]
  | width order unsupported =>
    simp only [announcement, RemoteCall.magic, List.cons_append, List.nil_append, decode, ne_eq,
      not_true_eq_false, ↓reduceIte, NumberKind.ofByte?_toByte, unsupported, Bool.false_eq_true]

/-- Eight bytes announce a supported format, or there is something wrong with them. -/
theorem announcement_or_faulty {bytes : List UInt8} (h : bytes.length = headerLength) :
    (∃ order width kind, bytes = announcement order width kind ∧
      Format.supports kind width = true) ∨ ∃ fault, Faulty bytes fault := by
  obtain ⟨m₀, m₁, m₂, m₃, version, order, width, kind, rfl⟩ :
      ∃ m₀ m₁ m₂ m₃ version order width kind : UInt8,
        bytes = [m₀, m₁, m₂, m₃, version, order, width, kind] := by
    match bytes, h with
    | [m₀, m₁, m₂, m₃, version, order, width, kind], _ => exact ⟨_, _, _, _, _, _, _, _, rfl⟩
  by_cases hmagic : [m₀, m₁, m₂, m₃] = RemoteCall.magic
  · simp only [RemoteCall.magic, List.cons.injEq, and_true] at hmagic
    obtain ⟨rfl, rfl, rfl, rfl⟩ := hmagic
    by_cases hversion : version = protocolVersion
    · subst hversion
      cases hkind : NumberKind.ofByte? kind with
      | none => exact .inr ⟨_, .kind order width hkind⟩
      | some k =>
        have hbyte : k.toByte = kind := NumberKind.toByte_of_ofByte? hkind
        subst hbyte
        cases hsupports : Format.supports k width with
        | true => exact .inl ⟨order, width, k, rfl, hsupports⟩
        | false => exact .inr ⟨_, .width order hsupports⟩
    · exact .inr ⟨_, .version order width kind hversion⟩
  · exact .inr ⟨_, .magic version order width kind hmagic⟩

end Header

namespace Session

variable {own f : Format} {c : Connection} {bytes stream rest : List UInt8}

/-- The stream begins with a greeting: the command and a header that passes all checks. -/
def Greets (stream : List UInt8) : Prop :=
  ∃ order width kind rest,
    stream = Command.connect.toByte :: (Header.announcement order width kind ++ rest) ∧
      Format.supports kind width = true

/-- A server has answered this header and has the settled format in effect, which is what its answer
announces. These bytes are next on the line. -/
structure Settled (own : Format) (c : Connection) (peer : Header) (rest : List UInt8)
    (later : Connection) : Prop where
  serves : later.Serves own (own.reconcile peer)
  next : later.line.inbound.Brings rest []
  answered : ∃ reply answer, later.line.written = c.line.written ++ reply ∧
    reply.length = headerLength ∧ Header.decode reply = .ok answer ∧
    answer.format = later.format

/-- What becomes of a server behind the command when these bytes follow and nothing else: its result
and the connection afterwards. -/
inductive Negotiates (own : Format) (c : Connection) :
    List UInt8 → Except Error Unit → Connection → Prop where
  | agreed (order : UInt8) {width : UInt8} {kind : NumberKind} {rest : List UInt8}
      {later : Connection} (supported : Format.supports kind width = true)
      (settled : Settled own c (Header.announced order width kind) rest later) :
      Negotiates own c (Header.announcement order width kind ++ rest) (.ok ()) later
  | refused {bytes rest : List UInt8} {fault : HandshakeFault} {input : Inbound}
      (faulty : Header.Faulty bytes fault) (next : input.Brings rest []) :
      Negotiates own c (bytes ++ rest) (.error (.header fault)) (c.withInput input)
  | cut {bytes : List UInt8} (short : bytes.length < headerLength) :
      Negotiates own c bytes (.error .eof) (c.withInput ⟨[], []⟩)

/-- What becomes of a server that awaits its greeting when these bytes come and nothing else. -/
inductive Greeted (own : Format) (c : Connection) :
    List UInt8 → Except Error Unit → Connection → Prop where
  | silent : Greeted own c [] (.error .eof) (c.withInput ⟨[], []⟩)
  | stray {b : UInt8} {rest : List UInt8} {input : Inbound} (other : b ≠ Command.connect.toByte)
      (next : input.Brings rest []) :
      Greeted own c (b :: rest) (.error (.header (.notConnect b))) (c.withInput input)
  | header {bytes : List UInt8} {result : Except Error Unit} {later : Connection}
      (negotiates : Negotiates own c bytes result later) :
      Greeted own c (Command.connect.toByte :: bytes) result later

/-- The settled format is announced by the answer. -/
theorem settle_settled {peer : Header} (hown : own.isSupported = true) (hpeer : peer.IsValid)
    (hc : c.Serves own f) (hin : c.line.inbound.Brings rest []) :
    ∃ later, settle (own.reconcile peer) c = (.ok (), later) ∧ Settled own c peer rest later := by
  obtain ⟨later, hsettle, hlater, hinbound, hwritten⟩ := settle_serves (own.reconcile peer) hc
  have hvalid := Header.isValid_ofFormat (Format.isSupported_reconcile hown hpeer)
  refine ⟨later, hsettle, hlater, ?_, _, _, hwritten, rfl, Header.decode_encode hvalid, ?_⟩
  · rw [hinbound]
    exact hin
  · rw [hlater.openIn.format_eq]
    rfl

/-- Behind the command a server negotiates, whatever comes. -/
theorem negotiateServer_negotiates (hown : own.isSupported = true) (hc : c.Serves own f)
    (hin : c.line.inbound.Brings bytes []) :
    Negotiates own c bytes (negotiateServer c).1 (negotiateServer c).2 := by
  have hopen := hc.openIn.isOpen
  by_cases hshort : bytes.length < headerLength
  · rw [negotiateServer_breaks hopen hshort hin .ending]
    exact .cut hshort
  · have hlength : (bytes.take headerLength).length = headerLength := by
      rw [List.length_take]
      omega
    rw [← List.take_append_drop headerLength bytes] at hin ⊢
    generalize bytes.take headerLength = header at hin hlength ⊢
    generalize bytes.drop headerLength = rest at hin ⊢
    obtain ⟨order, width, kind, rfl, hsupports⟩ | ⟨fault, hfault⟩ :=
      Header.announcement_or_faulty hlength
    · have hdecode := Header.decode_announcement order hsupports
      obtain ⟨input, hinput, hrun⟩ := negotiateServer_run hopen hdecode hin
      obtain ⟨later, hsettle, hsettled⟩ := settle_settled hown (Header.isValid_of_decode hdecode)
        (hc.withInput input) hinput
      rw [hrun, hc.native_eq, hsettle]
      exact .agreed order hsupports ⟨hsettled.serves, hsettled.next, hsettled.answered⟩
    · obtain ⟨input, hrun, hinput⟩ :=
        negotiateServer_malformed hopen hlength hfault.decode_eq hin
      rw [hrun]
      exact .refused hfault hinput

/-- What was read before is of no account for a negotiation. -/
theorem Negotiates.of_withInput {input : Inbound} {result : Except Error Unit} {later : Connection}
    (h : Negotiates own (c.withInput input) bytes result later) :
    Negotiates own c bytes result later := by
  cases h with
  | agreed order supported settled =>
    exact .agreed order supported ⟨settled.serves, settled.next, settled.answered⟩
  | refused faulty next => exact .refused faulty next
  | cut short => exact .cut short

/-- A server is greeted, whatever comes. -/
theorem acceptHandshake_greeted (hown : own.isSupported = true) (hc : c.Serves own f)
    (hin : c.line.inbound.Brings stream []) :
    Greeted own c stream (acceptHandshake c).1 (acceptHandshake c).2 := by
  have hopen := hc.openIn.isOpen
  cases stream with
  | nil =>
    rw [acceptHandshake_breaks hopen (.inl rfl) hin .ending]
    exact .silent
  | cons b bytes =>
    by_cases hb : b = Command.connect.toByte
    · subst hb
      obtain ⟨middle, hmiddle, hrun⟩ := acceptHandshake_of_connect hopen hin
      rw [hrun]
      exact .header (negotiateServer_negotiates hown (hc.withInput middle) hmiddle).of_withInput
    · obtain ⟨input, hrun, hinput⟩ := acceptHandshake_stray hopen hb hin
      rw [hrun]
      exact .stray hb hinput

section

variable {result : Except Error Unit} {later : Connection}

/-- With the command before them bytes can only be negotiated about. -/
theorem Greeted.negotiates (h : Greeted own c (Command.connect.toByte :: bytes) result later) :
    Negotiates own c bytes result later := by
  generalize hstream : Command.connect.toByte :: bytes = stream at h
  cases h with
  | silent => exact nomatch hstream
  | stray other next => exact absurd (List.cons.inj hstream).1.symm other
  | header negotiates =>
    rw [(List.cons.inj hstream).2]
    exact negotiates

/-- A push leaves the outcome of a negotiation as it is. -/
theorem Negotiates.of_pushed {pushed : Connection} (h : Negotiates own c bytes (.ok ()) later)
    (hincoming : pushed.incoming = later.incoming)
    (hwritten : pushed.line.written = later.line.written) :
    Negotiates own c bytes (.ok ()) pushed := by
  cases h with
  | agreed order supported settled =>
    obtain ⟨reply, answer, hreply, hlength, hdecode, hformat⟩ := settled.answered
    have hserves := settled.serves.of_incoming hincoming
    refine .agreed order supported
      ⟨hserves, ?_, reply, answer, hwritten.trans hreply, hlength, hdecode, ?_⟩
    · rw [Connection.inbound_of_incoming hincoming]
      exact settled.next
    · rw [hformat, hserves.openIn.format_eq, settled.serves.openIn.format_eq]

/-- The bytes settle the result of a negotiation. -/
theorem Negotiates.result_eq (h : Negotiates own c bytes result later) :
    result = if bytes.length < headerLength then .error .eof
      else (Header.decode (bytes.take headerLength)).map fun _ => () := by
  have htake : ∀ {header rest : List UInt8}, header.length = headerLength →
      ¬ (header ++ rest).length < headerLength ∧ (header ++ rest).take headerLength = header := by
    intro header rest hlength
    rw [List.length_append, ← hlength]
    exact ⟨Nat.not_lt.mpr (Nat.le_add_right _ _), List.take_left⟩
  cases h with
  | agreed order supported settled =>
    have hheader := Header.decode_announcement order supported
    obtain ⟨hlong, hbytes⟩ := htake (Header.length_of_decode hheader)
    rw [if_neg hlong, hbytes, hheader]
    rfl
  | refused faulty next =>
    obtain ⟨hlong, hbytes⟩ := htake faulty.length_eq
    rw [if_neg hlong, hbytes, faulty.decode_eq]
    rfl
  | cut short => rw [if_pos short]

/-- The server has answered exactly when it was greeted properly. -/
theorem Greeted.result_eq_ok_iff (h : Greeted own c stream result later) :
    result = .ok () ↔ Greets stream := by
  constructor
  · rintro rfl
    cases h with
    | header negotiates =>
      cases negotiates with
      | agreed order supported settled => exact ⟨order, _, _, _, rfl, supported⟩
  · rintro ⟨order, width, kind, rest, hstream, hsupports⟩
    cases h with
    | silent => exact nomatch hstream
    | stray other next => exact absurd (List.cons.inj hstream).1 other
    | header negotiates =>
      have hbytes := (List.cons.inj hstream).2
      cases negotiates with
      | agreed order supported settled => rfl
      | refused faulty next =>
        obtain ⟨rfl, -⟩ := List.append_inj hbytes faulty.length_eq
        have hdecode := Header.decode_announcement order hsupports
        exact nomatch hdecode.symm.trans faulty.decode_eq
      | cut short =>
        rw [hbytes, List.length_append] at short
        exact absurd short (Nat.not_lt.mpr (Nat.le_add_right _ _))

/-- A server that was not greeted has the fault or the end of the stream for an error, and nothing
but its input has changed. -/
theorem Greeted.of_error {e : Error} (h : Greeted own c stream (.error e) later) :
    e.isFatal = true ∧ (∃ input, later = c.withInput input) ∧
      ((e = .eof ∧ BeginsGreeting stream) ∨
        ((∃ fault, e = .header fault) ∧ ¬ BeginsGreeting stream)) := by
  cases h with
  | silent => exact ⟨rfl, ⟨_, rfl⟩, .inl ⟨rfl, .inl rfl⟩⟩
  | stray other next =>
    refine ⟨rfl, ⟨_, rfl⟩, .inr ⟨⟨_, rfl⟩, ?_⟩⟩
    rintro (hnil | ⟨begun, hbegun, -⟩)
    · exact nomatch hnil
    · exact other (List.cons.inj hbegun).1
  | header negotiates =>
    cases negotiates with
    | refused faulty next =>
      refine ⟨rfl, ⟨_, rfl⟩, .inr ⟨⟨_, rfl⟩, ?_⟩⟩
      rintro (hnil | ⟨begun, hbegun, hshort⟩)
      · exact nomatch hnil
      · rw [← (List.cons.inj hbegun).2, List.length_append, faulty.length_eq] at hshort
        exact absurd hshort (Nat.not_lt.mpr (Nat.le_add_right _ _))
    | cut short => exact ⟨rfl, ⟨_, rfl⟩, .inl ⟨rfl, .inr ⟨_, rfl, short⟩⟩⟩

end

end Session

namespace Serving

open Session

variable {σ : Type} {own f : Format} {bytes : List UInt8} {s : Served σ}

/-- A greeting between requests is a negotiation behind the command, and the host does not notice.
-/
theorem serveOne_negotiates (h : Host σ) (hown : own.isSupported = true)
    (hs : s.conn.Serves own f)
    (hin : s.conn.line.inbound.Brings (Command.connect.toByte :: bytes) []) :
    ∃ result later, serveOne h s = (result, ⟨later, s.host⟩) ∧
      Negotiates own s.conn bytes result later := by
  obtain ⟨middle, hcommand, hmiddle⟩ :=
    reads_command (f := f) Command.connect.toByte s bytes [] hs.openIn hin
  have hnegotiates :=
    (negotiateServer_negotiates hown (hs.withInput middle) hmiddle).of_withInput
  rw [serveOne_of_connect hcommand]
  cases hrun : negotiateServer (s.conn.withInput middle) with
  | mk result later =>
    rw [hrun] at hnegotiates
    have hconn : (onConn negotiateServer : Serving σ Unit) ⟨s.conn.withInput middle, s.host⟩ =
        (result, ⟨later, s.host⟩) := onConn_of_run hrun
    cases result with
    | error e => exact ⟨_, _, bind_of_error hconn, hnegotiates⟩
    | ok u =>
      have hlater : ∃ g, later.Serves own g := by
        cases hnegotiates with
        | agreed order supported settled => exact ⟨_, settled.serves⟩
      obtain ⟨g, hlater⟩ := hlater
      obtain ⟨pushed, hflush, hincoming, hwritten⟩ :=
        emits_flush later hlater.openIn hlater.free
      rw [Emission.ofBytes, List.append_nil] at hwritten
      refine ⟨.ok (), pushed, (bind_of_ok hconn).trans ?_,
        hnegotiates.of_pushed hincoming hwritten⟩
      exact onConn_of_run hflush

/-- A server answers a stream of bytes exactly when a proper greeting begins it: then it has taken
the nine bytes of the greeting and sent eight, which announce the format that is in effect. Any
other stream is a fatal fault of the header, or the end of the stream where it ends before that, and
leaves everything but the input as it was. The command between two requests has the same outcome. -/
theorem handshake_iff_greets (h : Host σ) (hown : own.isSupported = true)
    (hs : s.conn.Serves own f) {stream : List UInt8}
    (hin : s.conn.line.inbound.Brings stream []) :
    ((acceptHandshake s.conn).1 = .ok () ↔ Greets stream) ∧
    Greeted own s.conn stream (acceptHandshake s.conn).1 (acceptHandshake s.conn).2 ∧
    (∀ e, (acceptHandshake s.conn).1 = .error e →
      e.isFatal = true ∧ (∃ input, (acceptHandshake s.conn).2 = s.conn.withInput input) ∧
      ((e = .eof ∧ BeginsGreeting stream) ∨
        ((∃ fault, e = .header fault) ∧ ¬ BeginsGreeting stream))) ∧
    (∀ bytes, stream = Command.connect.toByte :: bytes → ∃ later,
      serveOne h s = ((acceptHandshake s.conn).1, ⟨later, s.host⟩) ∧
      Greeted own s.conn stream (acceptHandshake s.conn).1 later) := by
  have hgreeted := acceptHandshake_greeted hown hs hin
  refine ⟨hgreeted.result_eq_ok_iff, hgreeted, ?_, ?_⟩
  · intro e he
    rw [he] at hgreeted
    exact hgreeted.of_error
  · rintro bytes rfl
    obtain ⟨result, later, hserve, hnegotiates⟩ := serveOne_negotiates h hown hs hin
    have hresult : result = (acceptHandshake s.conn).1 :=
      hnegotiates.result_eq.trans hgreeted.negotiates.result_eq.symm
    subst hresult
    exact ⟨later, hserve, .header hnegotiates⟩

/-- Any order byte greets, also with a request right behind the header, and with its last byte
missing the same header is the end of the stream. -/
theorem handshake_iff_greets_pipelined :
    Format.isSupported .host = true ∧
    (acceptHandshake (recording [3, 0x4c, 0x52, 0x50, 0x43, 3, 7, 4, 1, 2]).conn).1 = .ok () ∧
    (acceptHandshake (recording [3, 0x4c, 0x52, 0x50, 0x43, 3, 7, 4]).conn).1 = .error .eof := by
  have hserves : ∀ bytes, (recording bytes).conn.Serves .host .host :=
    fun _ => ⟨⟨rfl, rfl⟩, rfl, rfl⟩
  refine ⟨rfl, ?_, ?_⟩
  · exact (handshake_iff_greets recorder rfl (hserves _) (Inbound.brings_ofBytes _)).1.mpr
      ⟨7, 4, .integer, [2], rfl, rfl⟩
  · have hshort : BeginsGreeting [3, 0x4c, 0x52, 0x50, 0x43, 3, 7, 4] :=
      .inr ⟨[0x4c, 0x52, 0x50, 0x43, 3, 7, 4], rfl, show 7 < 8 by decide⟩
    obtain ⟨hok, -, herror, -⟩ := handshake_iff_greets recorder rfl
      (hserves [3, 0x4c, 0x52, 0x50, 0x43, 3, 7, 4]) (Inbound.brings_ofBytes _)
    cases hresult : (acceptHandshake (recording [3, 0x4c, 0x52, 0x50, 0x43, 3, 7, 4]).conn).1 with
    | ok u =>
      obtain ⟨order, width, kind, rest, hstream, -⟩ := hok.mp hresult
      have hlength := congrArg List.length hstream
      simp [Header.announcement, magic] at hlength
    | error e =>
      obtain ⟨-, -, ⟨rfl, -⟩ | ⟨-, hlong⟩⟩ := herror e hresult
      · rfl
      · exact absurd hshort hlong

end Serving

end RemoteCall
