import RemoteCall.Proofs.Serve.Request
import RemoteCall.Proofs.Wire.Severity

/-!
# What all steps of a server have in common

Behind its command byte a request is served by readings of strings, lengths and values, by asking
the host, by sending what fails with violations at most, and by refusals. A property that these
have, and that steps in a row have when each of them has it, is a property of the whole.
-/

namespace RemoteCall.Serving

variable {σ : Type}

/-- What a server does about a request behind its command byte. -/
def serveCommand (h : Host σ) (byte : UInt8) : Serving σ Unit := do
  match Command.ofByte? byte with
  | some .call => do
    ready
    serveCall h
  | some .get => do
    ready
    serveGet h
  | some .set => do
    ready
    serveSet h
  | some .connect => onConn Session.negotiateServer
  | none => onConn do
    Session.writeByte Status.unsupported.toByte
    Session.flush
    throw (.command byte)
  onConn Session.flush

/-- To serve a request is to read its command and to do what it says. -/
theorem serveOne_eq (h : Host σ) :
    serveOne h = onConn Session.readCommand >>= serveCommand h := rfl

/-- The property is kept by everything that serving a request is put together from. -/
structure Closed (P : {α : Type} → Serving σ α → Prop) : Prop where
  result : ∀ {α : Type} (a : α), P (pure a)
  violation : ∀ {α : Type} (v : Violation), P (throw (.protocol v) : Serving σ α)
  command : ∀ {α : Type} (byte : UInt8), P (throw (.command byte) : Serving σ α)
  host : ∀ {α : Type} (act : σ → α × σ), P (onHost act)
  string : P (onConn Session.readString)
  word : P (onConn Session.readWord)
  value : P (onConn Session.readValue)
  send : ∀ {emission : Format → Emission}, (∀ f, (emission f).Mild) →
    P (onConn (Session.send emission))
  flush : P (onConn Session.flush)
  negotiate : P (onConn Session.negotiateServer)
  seq : ∀ {α β : Type} {x : Serving σ α} {k : α → Serving σ β}, P x → (∀ a, P (k a)) → P (x >>= k)

namespace Closed

variable {P : {α : Type} → Serving σ α → Prop} (hP : Closed P) (h : Host σ)

include hP

/-- Sending a byte has the property. -/
theorem byte (b : UInt8) : P (onConn (Session.writeByte b)) :=
  hP.send fun _ => Emission.mild_ofBytes [b]

/-- Sending a length has the property. -/
theorem writeWord (v : UInt32) : P (onConn (Session.writeWord v)) :=
  hP.send fun f => Emission.mild_ofBytes (f.wordBytes v)

/-- Sending a value has the property. -/
theorem writeValue (v : Value) : P (onConn (Session.writeValue v)) :=
  hP.send fun f => Emission.mild_value f 0 v

/-- Sending values has the property. -/
theorem writeValues (vs : List Value) : P (onConn (Serving.writeValues vs)) := by
  induction vs with
  | nil => exact hP.result ()
  | cons v vs ih =>
    rw [Serving.writeValues, onConn_bind]
    exact hP.seq (hP.writeValue v) fun _ => ih

/-- Sending a failure of the host has the property. -/
theorem writeFailure (e : HostError) : P (Serving.writeFailure e) := by
  rw [Serving.writeFailure, onConn_bind]
  refine hP.seq (hP.byte 1) fun _ => ?_
  rw [onConn_bind]
  exact hP.seq (hP.writeWord e.code) fun _ => hP.send fun f => Emission.mild_string f _

/-- Giving consent has the property. -/
theorem ready : P (Serving.ready : Serving σ Unit) := by
  rw [Serving.ready, onConn_bind]
  exact hP.seq (hP.byte _) fun _ => hP.flush

/-- Reading a path has the property. -/
theorem readPath : P (Serving.readPath : Serving σ Path) := by
  rw [Serving.readPath, onConn_bind]
  refine hP.seq hP.string fun dotted => ?_
  split
  · exact hP.result _
  · exact hP.violation _

/-- Reading an argument has the property, with what the host makes of a blob. -/
theorem readArgument : P (Serving.readArgument h) := by
  refine hP.seq hP.value fun v => ?_
  split
  · exact hP.host _
  · exact hP.result _

/-- Reading arguments has the property. -/
theorem readArguments (count : Nat) : P (Serving.readArguments h count) := by
  induction count with
  | zero => exact hP.result []
  | succ count ih =>
    exact hP.seq (hP.readArgument h) fun first => hP.seq ih fun rest => hP.result (first :: rest)

/-- Serving a call has the property. -/
theorem serveCall : P (Serving.serveCall h) := by
  refine hP.seq hP.readPath fun path => hP.seq hP.word fun count =>
    hP.seq (hP.readArguments h count.toNat) fun args => hP.seq (hP.host _) fun outcome => ?_
  cases outcome with
  | error e => exact hP.writeFailure e
  | ok results =>
    have hreply : P (onConn do
        Session.writeByte 0
        Session.writeWord (UInt32.ofNat results.length)
        Serving.writeValues results) := by
      rw [onConn_bind]
      refine hP.seq (hP.byte 0) fun _ => ?_
      rw [onConn_bind]
      exact hP.seq (hP.writeWord _) fun _ => hP.writeValues results
    dsimp only
    split
    · rw [onConn_bind]
      exact hP.seq (hP.violation _) fun _ => hreply
    · exact hreply

/-- Serving a read has the property. -/
theorem serveGet : P (Serving.serveGet h) := by
  refine hP.seq hP.readPath fun path => hP.seq (hP.host _) fun found => ?_
  cases found with
  | ok v => exact hP.writeValue v
  | error e =>
    dsimp only
    split
    · exact hP.writeValue .nil
    · exact hP.violation _

/-- Serving an assignment has the property. -/
theorem serveSet : P (Serving.serveSet h) := by
  refine hP.seq hP.readPath fun path => hP.seq (hP.readArgument h) fun key =>
    hP.seq (hP.readArgument h) fun value => hP.seq (hP.host _) fun outcome => ?_
  cases outcome with
  | error e => exact hP.writeFailure e
  | ok u => exact hP.byte 0

/-- Behind its command byte the whole request has the property, whatever the command. -/
theorem serveCommand (byte : UInt8) : P (Serving.serveCommand h byte) := by
  unfold Serving.serveCommand
  cases Command.ofByte? byte with
  | none =>
    refine hP.seq ?_ fun _ => hP.flush
    rw [onConn_bind]
    refine hP.seq (hP.byte _) fun _ => ?_
    rw [onConn_bind]
    exact hP.seq hP.flush fun _ => hP.command byte
  | some c =>
    cases c with
    | call => exact hP.seq hP.ready fun _ => hP.seq (hP.serveCall h) fun _ => hP.flush
    | get => exact hP.seq hP.ready fun _ => hP.seq (hP.serveGet h) fun _ => hP.flush
    | set => exact hP.seq hP.ready fun _ => hP.seq (hP.serveSet h) fun _ => hP.flush
    | connect => exact hP.seq hP.negotiate fun _ => hP.flush

end Closed

end RemoteCall.Serving
