import RemoteCall.Connection
import RemoteCall.Path
import RemoteCall.Settings.Basic

/-!
# Client handles

A handle owns one negotiated connection. Every operation is one exchange: the command byte, the
server's consent, the body, and the reply. A fatal error or a timeout closes the connection, since
nobody knows what of the exchange is still to come. While an error handler is installed it receives
every failure, and the caller gets an empty result instead. A handler stays until it is removed or
another one takes its place, so each of them is known by a number of its own.
-/

namespace RemoteCall

/-- An error that a handler has received. -/
structure Report where
  handler : Nat
  error : Error
  deriving DecidableEq, Repr

/-- A client's end of a connection. -/
structure Handle where
  conn : Connection
  settings : ClientSettings
  /-- The error handler that is installed. -/
  handler : Option Nat := none
  /-- What the handlers have received so far, in order. -/
  reports : List Report := []

/-- A computation on a handle that may fail. -/
abbrev Calling (α : Type) := ExceptT Error (StateM Handle) α

namespace Exchange

/-- Sends a command byte and awaits the server's consent. -/
def start (c : Command) : Session Unit := do
  Session.writeByte c.toByte
  Session.flush
  let answer ← Session.readByte
  if answer = Status.ready.toByte then return ()
  else if answer = Status.unsupported.toByte then throw (.protocol (.unsupported c))
  else throw (.protocol (.notReady answer))

/-- Sends values one after another. -/
def sendValues : List Value → Session Unit
  | [] => return ()
  | v :: rest => do
    Session.writeValue v
    sendValues rest

/-- Reads that many values. -/
def readValues : Nat → Session (List Value)
  | 0 => return []
  | count + 1 => do
    let first ← Session.readValue
    return first :: (← readValues count)

/-- Reads the code and the message behind a failure status and fails with them. -/
def remoteFailure {α : Type} : Session α := do
  let code ← Session.readWord
  let message ← Session.readString
  throw (.remote code (Text.decodeLossy message))

/-- Calls the function at a path. The outcome is awaited with a time limit of its own, and the usual
one is restored whatever came. -/
def call (settings : ClientSettings) (p : Path) (args : List Value) : Session (List Value) := do
  if UInt32.size ≤ args.length then throw (.protocol .tooManyArguments)
  start .call
  Session.writeText p.text
  Session.writeWord (UInt32.ofNat args.length)
  sendValues args
  Session.flush
  Session.setTimeout settings.waitTimeout
  let status ← observing Session.readByte
  Session.setTimeout settings.communicationTimeout
  let status ← MonadExcept.ofExcept status
  if status = 0 then
    let count ← Session.readWord
    readValues count.toNat
  else if status = 1 then remoteFailure
  else throw (.protocol (.callStatus status))

/-- Reads the value at a path. -/
def get (p : Path) : Session Value := do
  start .get
  Session.writeText p.text
  Session.flush
  Session.readValue

/-- Stores a value under a key of the table at a path. -/
def set (p : Path) (key value : Value) : Session Unit := do
  start .set
  Session.writeText p.text
  Session.writeValue key
  Session.writeValue value
  Session.flush
  let status ← Session.readByte
  if status = 0 then return ()
  else if status = 1 then remoteFailure
  else throw (.protocol (.setStatus status))

/-- The handshake of a fresh handle; a failure closes the line. -/
def connect (settings : ClientSettings) : Session Unit := do
  Session.setTimeout settings.communicationTimeout
  match ← observing Session.negotiateClient with
  | .ok () => return ()
  | .error e => do
    Session.close
    throw e

end Exchange

namespace Handle

/-- Negotiates over an open line. The connection is given back in either case. -/
def ofLine (line : Line) (settings : ClientSettings) : Except Error Handle × Connection :=
  match Exchange.connect settings (.ofLine line settings.format) with
  | (.ok (), conn) => (.ok { conn, settings }, conn)
  | (.error e, conn) => (.error e, conn)

/-- The connection can still be used. -/
def isOpen (h : Handle) : Bool := h.conn.isOpen

/-- Closes the connection. -/
def close (h : Handle) : Handle := { h with conn := h.conn.close }

/-- Installs an error handler in place of any other. -/
def watch (h : Handle) (handler : Nat) : Handle := { h with handler := some handler }

/-- Removes the error handler. -/
def unwatch (h : Handle) : Handle := { h with handler := none }

/-- An error handler is installed. -/
def watched (h : Handle) : Bool := h.handler.isSome

/-- The errors that have gone to a handler so far, in order. -/
def reported (h : Handle) : List Error := h.reports.map Report.error

/-- Hands a failure to the error handler, or to the caller if there is none. -/
def tell {α : Type} [Inhabited α] (e : Error) : Calling α := fun h =>
  match h.handler with
  | some handler => (.ok default, { h with reports := h.reports ++ [⟨handler, e⟩] })
  | none => (.error e, h)

/-- Hands on the outcome of an operation. -/
def finish {α : Type} [Inhabited α] (outcome : Except Error α) : Calling α := fun h =>
  match outcome with
  | .ok a => (.ok a, h)
  | .error e => tell e (if e.isFatal || e = .timeout then h.close else h)

/-- Runs an exchange and finishes it. -/
def perform {α : Type} [Inhabited α] (act : ClientSettings → Session α) : Calling α := fun h =>
  let (outcome, conn) := act h.settings h.conn
  finish outcome { h with conn := conn }

/-- Runs an exchange about a path whose names are short enough. -/
def performAt {α : Type} [Inhabited α] (p : Path) (act : ClientSettings → Session α) : Calling α :=
  fun h =>
    match p.check h.settings.maxNameLength with
    | .error e => finish (.error e) h
    | .ok () => perform act h

/-- Negotiates the format once more. -/
def reconnect : Calling Unit := perform fun _ => Session.negotiateClient

/-- Calls the function at a path. -/
def callPath (p : Path) (args : List Value) : Calling (List Value) :=
  performAt p fun settings => Exchange.call settings p args

/-- Reads the value at a path. -/
def getPath (p : Path) : Calling Value := performAt p fun _ => Exchange.get p

/-- Stores a value under a key of the table at a path. -/
def setPath (p : Path) (key value : Value) : Calling Unit :=
  performAt p fun _ => Exchange.set p key value

/-- Assigns a global. -/
def set (key value : Value) : Calling Unit := setPath .root key value

end Handle

end RemoteCall
