import RemoteCall.Connection
import RemoteCall.Host

/-!
# Serving requests

One request is a command byte, the server's consent, a body and a reply. A host failure is a reply
like any other; a failure of the protocol or of the line is handed to the caller, who judges by its
severity whether to go on. The loop on a single line awaits the handshake, ignores idle timeouts,
goes on after non-fatal errors and ends when the peer hangs up. Each of its rounds takes something
from the line or ends it, so the unread input bounds the number of rounds.
-/

namespace RemoteCall

/-- A connection together with the state of the application behind it. -/
structure Served (σ : Type) where
  conn : Connection
  host : σ

/-- A computation on a served connection that may fail. -/
abbrev Serving (σ α : Type) := ExceptT Error (StateM (Served σ)) α

namespace Serving

variable {σ α : Type}

/-- An operation on the connection alone. -/
def onConn (act : Session α) : Serving σ α := fun s =>
  let (result, conn) := act s.conn
  (result, { s with conn := conn })

/-- An operation of the host alone. -/
def onHost (act : σ → α × σ) : Serving σ α := fun s =>
  let (result, host) := act s.host
  (.ok result, { s with host := host })

/-- Tells the peer to send the body. -/
def ready : Serving σ Unit := onConn do
  Session.writeByte Status.ready.toByte
  Session.flush

/-- A request path. -/
def readPath : Serving σ Path := onConn do
  match Text.decode? (← Session.readString) with
  | some dotted => return .parse dotted
  | none => throw (.protocol .pathNotText)

/-- A value of a request, where blobs go through the host. -/
def readArgument (h : Host σ) : Serving σ Value := do
  match ← onConn Session.readValue with
  | .blob bytes => onHost fun s => h.adopt s bytes
  | v => return v

/-- That many values of a request. -/
def readArguments (h : Host σ) : Nat → Serving σ (List Value)
  | 0 => return []
  | count + 1 => do
    let first ← readArgument h
    return first :: (← readArguments h count)

/-- The reply to a request that failed in the host. -/
def writeFailure (e : HostError) : Serving σ Unit := onConn do
  Session.writeByte 1
  Session.writeWord e.code
  Session.writeText e.message

/-- Writes values one after another. -/
def writeValues : List Value → Session Unit
  | [] => return ()
  | v :: rest => do
    Session.writeValue v
    writeValues rest

/-- The body of a call and its reply: the number of results and the results. -/
def serveCall (h : Host σ) : Serving σ Unit := do
  let path ← readPath
  let count ← onConn Session.readWord
  let args ← readArguments h count.toNat
  match ← onHost fun s => h.invoke s path args with
  | .ok results => onConn do
    if UInt32.size ≤ results.length then throw (.protocol .tooManyResults)
    Session.writeByte 0
    Session.writeWord (UInt32.ofNat results.length)
    writeValues results
  | .error e => writeFailure e

/-- The body of a read and its reply: the value, or nil where nothing lives. There is no reply for
any other failure of the host. -/
def serveGet (h : Host σ) : Serving σ Unit := do
  let path ← readPath
  let found ← onHost fun s => (h.resolve s path, s)
  match found with
  | .ok v => onConn (Session.writeValue v)
  | .error e =>
    if e.isNotFound then onConn (Session.writeValue .nil)
    else throw (.protocol (.unreadable path.text e.message))

/-- The body of an assignment and its reply. -/
def serveSet (h : Host σ) : Serving σ Unit := do
  let path ← readPath
  let key ← readArgument h
  let value ← readArgument h
  match ← onHost fun s => h.assign s path key value with
  | .ok () => onConn (Session.writeByte 0)
  | .error e => writeFailure e

end Serving

open Serving in
/-- Serves one request. -/
def serveOne {σ : Type} (h : Host σ) : Serving σ Unit := do
  let byte ← onConn Session.readCommand
  match Command.ofByte? byte with
  | some .call => do
    ready
    serveCall h
  | some .get => do
    ready
    serveGet h
  | some .set => do
    ready
    serveSet h
  | some .connect => onConn Session.negotiateServer
  | none => onConn do
    Session.writeByte Status.unsupported.toByte
    Session.flush
    throw (.command byte)
  onConn Session.flush

/-- Awaits the handshake; a timeout before it is complete starts over. -/
def awaitHandshake : Nat → Session Unit
  | 0 => throw .eof
  | rounds + 1 => fun c =>
    match Session.acceptHandshake c with
    | (.error .timeout, c) => awaitHandshake rounds c
    | other => other

/-- Serves requests until the peer hangs up or an error is fatal. -/
def serveRequests {σ : Type} (h : Host σ) : Nat → Serving σ Unit
  | 0 => throw .eof
  | rounds + 1 => fun s =>
    match serveOne h s with
    | (.ok (), s) => serveRequests h rounds s
    | (.error e, s) =>
      match e.severity with
      | .done => (.ok (), s)
      | .nonFatal => serveRequests h rounds s
      | .fatal => (.error e, s)

/-- A bound on the rounds of a loop that takes something from the line in each. -/
def Connection.rounds (c : Connection) : Nat := c.line.inbound.size + 1

open Serving in
/-- Serves one peer from its handshake on. -/
def serve {σ : Type} (h : Host σ) : Serving σ Unit := do
  onConn fun c => awaitHandshake c.rounds c
  fun s => serveRequests h s.conn.rounds s

end RemoteCall
