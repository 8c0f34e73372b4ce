import RemoteCall.Line.Basic
import RemoteCall.Wire.Decode

/-!
# Connections

A connection is a line with the format of this side and the format in effect. Every operation first
checks that the line is open and otherwise fails before a byte is touched. The handshake settles the
format: the client announces its own and adopts what the server answers, the server settles both and
announces the result. A refused handshake changes no format.
-/

namespace RemoteCall

/-- A line with the format agreed on it. -/
structure Connection where
  line : Line
  /-- The format of this side. -/
  native : Format
  /-- The format in effect. -/
  format : Format

/-- A computation on a connection that may fail; what it did before it failed stays done. -/
abbrev Session (α : Type) := ExceptT Error (StateM Connection) α

namespace Connection

/-- A connection before any handshake, in the format of this side. -/
def ofLine (line : Line) (native : Format) : Connection := ⟨line, native, native⟩

/-- The line can still be used. -/
def isOpen (c : Connection) : Bool := c.line.isOpen

/-- Closes the line. -/
def close (c : Connection) : Connection := { c with line := c.line.close }

end Connection

namespace Session

/-- Fails on a closed line. -/
def requireOpen : Session Unit := do
  if !(← get).isOpen then throw .closed

/-- Runs a reader on the incoming side. -/
def receive {α : Type} (reader : Format → Reader α) : Session α := do
  requireOpen
  fun c =>
    let (result, inbound) := reader c.format c.line.inbound
    (result, { c with line := { c.line with inbound := inbound } })

/-- Sends an emission, and then fails if it does. -/
def send (emission : Format → Emission) : Session Unit := do
  requireOpen
  fun c =>
    let e := emission c.format
    let (result, line) := c.line.write e.bytes
    let result :=
      match result, e.failure with
      | .ok (), some failure => .error failure
      | result, _ => result
    (result, { c with line := line })

def writeByte (b : UInt8) : Session Unit := send fun _ => .byte b

def writeWord (v : UInt32) : Session Unit := send (Emission.word · v)

def writeString (bytes : List UInt8) : Session Unit := send (Emission.string · bytes)

def writeText (s : String) : Session Unit := send (Emission.text · s)

def writeValue (v : Value) : Session Unit := send (v.encode ·)

def readByte : Session UInt8 := receive fun _ => Reader.byte

def readWord : Session UInt32 := receive Reader.word

def readString : Session (List UInt8) := receive Reader.string

def readValue : Session Value := receive Reader.value

/-- Pushes what was sent to the peer. -/
def flush : Session Unit := do
  requireOpen
  fun c =>
    let (result, line) := c.line.flush
    (result, { c with line := line })

/-- Bounds every later read and write. -/
def setTimeout (timeout : Option Duration) : Session Unit := do
  requireOpen
  modify fun c => { c with line := c.line.setTimeout timeout }

/-- Whether a read would find something at once. -/
def readableNow : Session Bool := do
  requireOpen
  return (← get).line.hasInput

/-- Closes the line. -/
def close : Session Unit := modify Connection.close

/-- The byte that opens a request. The end of the stream here means that the peer hung up. -/
def readCommand : Session UInt8 := do
  match ← receive fun _ => Reader.byte? with
  | some b => return b
  | none => throw .disconnected

/-- Puts a format into effect. -/
def adopt (f : Format) : Session Unit := modify fun c => { c with format := f }

/-- The client's handshake. A reply that is no usable header closes the line. -/
def negotiateClient : Session Unit := do
  requireOpen
  let own := Header.ofFormat (← get).native
  send fun _ => .byte Command.connect.toByte
  send fun _ => .ofBytes own.encode
  flush
  match Header.decode (← receive fun _ => Reader.take headerLength) with
  | .ok agreed => adopt agreed.format
  | .error e => do
    close
    throw e

/-- The server's handshake after the command byte. -/
def negotiateServer : Session Unit := do
  let bytes ← receive fun _ => Reader.take headerLength
  let peer ← MonadExcept.ofExcept (Header.decode bytes)
  let agreed := (← get).native.reconcile peer
  send fun _ => .ofBytes (Header.ofFormat agreed).encode
  flush
  adopt agreed

/-- The server's handshake on a fresh connection, command byte included. -/
def acceptHandshake : Session Unit := do
  let first ← readByte
  if first ≠ Command.connect.toByte then throw (.header (.notConnect first))
  negotiateServer

end Session

end RemoteCall
