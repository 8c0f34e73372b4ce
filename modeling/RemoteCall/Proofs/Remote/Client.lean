import RemoteCall.Client.Handle
import RemoteCall.Proofs.Conversation
import RemoteCall.Proofs.Wire.Frame

/-!
# The client's side of an exchange

Each exchange of a client, told by what it waits for. Before the server's consent it has sent the
command byte, before the reply it has sent the whole operation, and a reply in full gives the result
that the reply stands for: values as the format carries them, or the failure of the other side.
-/

namespace RemoteCall

/-- The value can be encoded in the format. -/
def Value.Encodable (f : Format) (v : Value) : Prop := (v.encode f).failure = none

/-- The text is short enough for the wire. -/
def Text.Fits (s : String) : Prop := (Text.bytes s).length ≤ maxString

/-- The operation can be encoded in the format. -/
def Operation.Encodable (f : Format) (op : Operation) : Prop :=
  op.Countable ∧ (op.emission f).failure = none

section

variable {f : Format}

/-- A text is sent as a whole exactly when it is short enough. -/
theorem Emission.text_failure_eq_none {s : String} :
    (Emission.text f s).failure = none ↔ Text.Fits s := by
  unfold Emission.text Emission.string Text.Fits
  by_cases hs : maxString < (Text.bytes s).length
  · simp [hs, Emission.fail, Nat.not_le_of_lt hs]
  · simp only [hs, ↓reduceIte, Nat.le_of_not_lt hs, iff_true]
    rfl

/-- Values are sent as a whole exactly when each of them is. -/
theorem Emission.values_failure_eq_none {vs : List Value} :
    (Emission.values f vs).failure = none ↔ ∀ v ∈ vs, v.Encodable f := by
  induction vs with
  | nil => simp [Emission.values, Emission.ofBytes]
  | cons v vs ih =>
    rw [Emission.values, append_failure_eq_none, ih, List.forall_mem_cons]
    rfl

/-- A call can be encoded when its path, its arguments and their number can. -/
theorem Operation.encodable_call {p : Path} {args : List Value} (hp : Text.Fits p.text)
    (hcount : args.length < UInt32.size) (hargs : ∀ v ∈ args, v.Encodable f) :
    (Operation.call p args).Encodable f :=
  ⟨hcount, Emission.append_failure_eq_none.mpr ⟨rfl, Emission.append_failure_eq_none.mpr
    ⟨Emission.text_failure_eq_none.mpr hp, Emission.append_failure_eq_none.mpr
      ⟨rfl, Emission.values_failure_eq_none.mpr hargs⟩⟩⟩⟩

/-- Reading can be encoded when its path can. -/
theorem Operation.encodable_get {p : Path} (hp : Text.Fits p.text) :
    (Operation.get p).Encodable f :=
  ⟨trivial, Emission.append_failure_eq_none.mpr ⟨rfl, Emission.text_failure_eq_none.mpr hp⟩⟩

/-- Assigning can be encoded when its path, its key and its value can. -/
theorem Operation.encodable_set {p : Path} {key value : Value} (hp : Text.Fits p.text)
    (hkey : key.Encodable f) (hvalue : value.Encodable f) :
    (Operation.set p key value).Encodable f :=
  ⟨trivial, Emission.append_failure_eq_none.mpr ⟨rfl, Emission.append_failure_eq_none.mpr
    ⟨Emission.text_failure_eq_none.mpr hp, Emission.append_failure_eq_none.mpr ⟨hkey, hvalue⟩⟩⟩⟩

/-- A text that fits is read back from its bytes. -/
theorem Reader.follows_text {s : String} (hs : Text.Fits s) :
    Follows (string f) (Emission.text f s).bytes (.done (Text.bytes s)) := by
  obtain ⟨payload, hpayload⟩ := Emission.string_begins f (Text.bytes s)
  obtain ⟨hbytes, hreading⟩ := hpayload.of_none (Emission.text_failure_eq_none.mpr hs)
  have hfollows := payload.follows_string (f := f)
  rw [← hbytes, hreading] at hfollows
  exact hfollows

end

namespace Operation

def command : Operation → Command
  | .call .. => .call
  | .get _ => .get
  | .set .. => .set

/-- The bytes of an operation behind the command byte. -/
def body (f : Format) : Operation → Emission
  | .call path args =>
    .text f path.text ++ (.word f (UInt32.ofNat args.length) ++ .values f args)
  | .get path => .text f path.text
  | .set path key value => .text f path.text ++ (key.encode f ++ value.encode f)

/-- An operation is its command byte and its body. -/
theorem emission_eq (f : Format) (op : Operation) :
    op.emission f = .byte op.command.toByte ++ op.body f := by
  cases op <;> rfl

end Operation

/-- What a server answers to a call that succeeds. -/
def resultsReply (f : Format) (results : List Value) : Emission :=
  .byte 0 ++ (.word f (UInt32.ofNat results.length) ++ .values f results)

/-- What a server answers to a call or an assignment that fails. -/
def failureReply (f : Format) (code : UInt32) (message : String) : Emission :=
  .byte 1 ++ (.word f code ++ .text f message)

/-- A failure is sent as a whole exactly when its text is short enough. -/
theorem failureReply_failure_eq_none {f : Format} {code : UInt32} {message : String} :
    (failureReply f code message).failure = none ↔ Text.Fits message := by
  unfold failureReply
  rw [Emission.append_failure_eq_none, Emission.append_failure_eq_none,
    Emission.text_failure_eq_none]
  exact ⟨fun hfits => hfits.2.2, fun hfits => ⟨rfl, rfl, hfits⟩⟩

namespace Exchange

open Session

variable {f : Format}

/-- A byte is received as it was sent. -/
theorem readByte_does (b : UInt8) : Does f readByte [b] (.ok b) [] :=
  does_receive (fun _ => Reader.byte) (Reader.follows_byte b)

/-- Without a byte receiving one stalls. -/
theorem readByte_stalls : Stalls f readByte [] [] :=
  stalls_receive (fun _ => Reader.byte) Reader.breaks_byte

/-- A value is received as the format rounds it. -/
theorem readValue_does (hf : f.isSupported = true) {v : Value} (hv : v.Encodable f) :
    Does f readValue (v.encode f).bytes (.ok (v.quantise f)) [] :=
  does_receive Reader.value (Reader.follows_encode hf hv)

/-- Without a byte receiving a value stalls. -/
theorem readValue_stalls : Stalls f readValue [] [] :=
  stalls_receive Reader.value Reader.breaks_value

/-- A request is started by its command byte, and the server has to be ready. -/
theorem start_does (command : Command) :
    Does f (start command) [Status.ready.toByte] (.ok ()) [command.toByte] := by
  have hsend : Does f (writeByte command.toByte) [] (.ok ()) [command.toByte] :=
    does_send (fun _ => .byte command.toByte) rfl
  refine hsend.bind_sent (does_flush.bind_quiet ?_)
  exact (readByte_does Status.ready.toByte).bind_result (does_pure ())

/-- Without an answer the command byte is all that is sent. -/
theorem start_stalls (command : Command) :
    Stalls f (start command) [] [command.toByte] := by
  have hsend : Does f (writeByte command.toByte) [] (.ok ()) [command.toByte] :=
    does_send (fun _ => .byte command.toByte) rfl
  exact hsend.bind_stalls (does_flush.bind_stalls readByte_stalls.bind)

/-- Values are sent one after another. -/
theorem sendValues_emits (vs : List Value) : Emits f (sendValues vs) (.values f vs) := by
  induction vs with
  | nil => exact emits_pure
  | cons v vs ih => exact (emits_send (v.encode ·)).bind ih

/-- Values are read as the format carries them. -/
theorem readValues_does (hf : f.isSupported = true) {vs : List Value}
    (hvs : ∀ v ∈ vs, v.Encodable f) :
    Does f (readValues vs.length) (Emission.values f vs).bytes
      (.ok (vs.map (Value.quantise f))) [] := by
  induction vs with
  | nil => exact does_pure []
  | cons v vs ih =>
    have hfirst : (v.encode f).failure = none := hvs v (List.mem_cons_self ..)
    have hv : Does f readValue (v.encode f).bytes (.ok (v.quantise f)) [] :=
      readValue_does hf hfirst
    rw [Emission.values, Emission.append_bytes hfirst]
    refine hv.bind (?_ : Does f _ _ _ [])
    exact (ih fun w hw => hvs w (List.mem_cons_of_mem _ hw)).bind_result (does_pure _)

/-- The failure of the other side is read from its code and its text. -/
theorem remoteFailure_does {α : Type} {code : UInt32} {message : String}
    (hmessage : Text.Fits message) :
    Does f (remoteFailure : Session α) (f.wordBytes code ++ (Emission.text f message).bytes)
      (.error (.remote code message)) [] := by
  have hcode : Does f readWord (f.wordBytes code) (.ok code) [] :=
    does_receive Reader.word (Reader.follows_word code)
  have htext : Does f readString (Emission.text f message).bytes
      (.ok (Text.bytes message)) [] :=
    does_receive Reader.string (Reader.follows_text hmessage)
  refine hcode.bind (htext.bind_result ?_ : Does f _ _ _ [])
  rw [Text.decodeLossy_bytes]
  exact does_throw _

/-- What a call waits for once it is sent. -/
def awaitResults (settings : ClientSettings) : Session (List Value) := do
  setTimeout settings.waitTimeout
  let status ← observing readByte
  setTimeout settings.communicationTimeout
  let status ← MonadExcept.ofExcept status
  if status = 0 then
    let count ← readWord
    readValues count.toNat
  else if status = 1 then remoteFailure
  else throw (.protocol (.callStatus status))

/-- What an assignment waits for once it is sent. -/
def awaitStatus : Session Unit := do
  let status ← readByte
  if status = 0 then return ()
  else if status = 1 then remoteFailure
  else throw (.protocol (.setStatus status))

/-- The bytes of an operation behind the command byte, sent and pushed. -/
def sendBody : Operation → Session Unit
  | .call path args => do
    writeText path.text
    writeWord (UInt32.ofNat args.length)
    sendValues args
    flush
  | .get path => do
    writeText path.text
    flush
  | .set path key value => do
    writeText path.text
    writeValue key
    writeValue value
    flush

/-- An exchange: the command, the operation, and what is made of the reply. -/
def exchange {α : Type} (op : Operation) (reply : Session α) : Session α := do
  start op.command
  sendBody op
  reply

/-- A call of fewer arguments than a length can say is an exchange. -/
theorem call_eq {settings : ClientSettings} {p : Path} {args : List Value}
    (hcount : args.length < UInt32.size) :
    call settings p args = exchange (.call p args) (awaitResults settings) := by
  unfold call exchange
  rw [if_neg (Nat.not_le_of_lt hcount)]
  simp only [sendBody, bind_assoc]
  rfl

/-- Reading a value is an exchange. -/
theorem get_eq (p : Path) : get p = exchange (.get p) readValue := by
  simp only [get, exchange, sendBody, bind_assoc]
  rfl

/-- Assigning a value is an exchange. -/
theorem set_eq (p : Path) (key value : Value) :
    set p key value = exchange (.set p key value) awaitStatus := by
  simp only [set, exchange, sendBody, awaitStatus, bind_assoc]
  rfl

/-- The body of an operation is sent as its emission says. -/
theorem sendBody_emits (op : Operation) : Emits f (sendBody op) (op.body f) := by
  cases op with
  | call path args =>
    exact (emits_send _).bind ((emits_send _).bind (sendValues_emits args).bind_flush)
  | get path => exact (emits_send (.text · path.text)).bind_flush
  | set path key value =>
    refine (emits_send (.text · path.text)).bind ?_
    exact (emits_send (key.encode ·)).bind (emits_send (value.encode ·)).bind_flush

section

variable {α : Type} {op : Operation} {reply : Session α} {input : List UInt8}
  {result : Except Error α}

/-- With the consent and the reply before it an exchange comes to the result of the reply. -/
theorem exchange_does (hop : op.Encodable f) (hreply : Does f reply input result []) :
    Does f (exchange op reply) (Status.ready.toByte :: input) result (op.emission f).bytes := by
  obtain ⟨-, hemission⟩ := hop
  rw [op.emission_eq] at hemission ⊢
  have hbody := (sendBody_emits op).does hemission
  exact (start_does op.command).bind (hbody.bind_answer hreply)

/-- Without consent an exchange has sent the command. -/
theorem exchange_stalls_at_start (op : Operation) :
    Stalls f (exchange op reply) [] [op.command.toByte] :=
  (start_stalls op.command).bind

/-- An exchange that stalls in its reply has sent the operation. -/
theorem exchange_stalls_at_reply (hop : op.Encodable f) (hreply : Stalls f reply input []) :
    Stalls f (exchange op reply) (Status.ready.toByte :: input) (op.emission f).bytes := by
  obtain ⟨-, hemission⟩ := hop
  rw [op.emission_eq] at hemission ⊢
  have hbody := (sendBody_emits op).does hemission
  exact (start_does op.command).bind_stalls (hbody.bind_waits hreply)

end

/-- Without an answer waiting for results stalls. -/
theorem awaitResults_stalls (settings : ClientSettings) :
    Stalls f (awaitResults settings) [] [] :=
  (does_setTimeout _).bind_stalls (readByte_stalls.observing_rethrow _)

/-- A call that succeeds gives its results as the format carries them. -/
theorem awaitResults_does_results (hf : f.isSupported = true) (settings : ClientSettings)
    {results : List Value} (hcount : results.length < UInt32.size)
    (hresults : ∀ v ∈ results, v.Encodable f) :
    Does f (awaitResults settings) (resultsReply f results).bytes
      (.ok (results.map (Value.quantise f))) [] := by
  have hword : Does f readWord (f.wordBytes (UInt32.ofNat results.length))
      (.ok (UInt32.ofNat results.length)) [] :=
    does_receive Reader.word (Reader.follows_word _)
  have hsize : (UInt32.ofNat results.length).toNat = results.length := by
    rw [UInt32.toNat_ofNat']
    exact Nat.mod_eq_of_lt hcount
  refine (does_setTimeout _).bind_quiet ((readByte_does 0).observing.bind (?_ : Does f _ _ _ []))
  refine (does_setTimeout _).bind_quiet ((does_pure 0).bind_quiet ?_)
  refine hword.bind (?_ : Does f _ _ _ [])
  rw [hsize]
  exact readValues_does hf hresults

/-- A call that fails gives the failure of the other side. -/
theorem awaitResults_does_failure (settings : ClientSettings) (code : UInt32) {message : String}
    (hmessage : Text.Fits message) :
    Does f (awaitResults settings) (failureReply f code message).bytes
      (.error (.remote code message)) [] := by
  refine (does_setTimeout _).bind_quiet ((readByte_does 1).observing.bind (?_ : Does f _ _ _ []))
  refine (does_setTimeout _).bind_quiet ((does_pure 1).bind_quiet ?_)
  exact remoteFailure_does hmessage

/-- Without an answer waiting for a status stalls. -/
theorem awaitStatus_stalls : Stalls f awaitStatus [] [] := readByte_stalls.bind

/-- Zero says that the assignment was made. -/
theorem awaitStatus_does_done : Does f awaitStatus [0] (.ok ()) [] :=
  (readByte_does 0).bind_result (does_pure ())

/-- A failure of the other side is received with its code and its text. -/
theorem awaitStatus_does_failure (code : UInt32) {message : String}
    (hmessage : Text.Fits message) :
    Does f awaitStatus (failureReply f code message).bytes (.error (.remote code message)) [] :=
  (readByte_does 1).bind (remoteFailure_does hmessage : Does f _ _ _ [])


end Exchange

end RemoteCall
