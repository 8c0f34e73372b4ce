import RemoteCall.CommandLine.Run
import RemoteCall.Line.Destination
import RemoteCall.Line.Link
import RemoteCall.Line.Serial
import RemoteCall.Server.Basic
import Std.Async.DNS
import Std.Async.TCP
import Std.Async.Timer

/-!
# The program

The surroundings that a command meets in the world: files, servers on the network and serial
devices. A step of the protocol runs on what has arrived so far. If it had to wait for more, what it
sent goes out, and with the next arrival it runs once more from its beginning; it then sends the
same again and something after it, of which only the latter goes out.
-/

namespace RemoteCall.CommandLine

open Std.Async Std.Net

/-! ## Failures -/

/-- The error number behind a code, which some calls of the system negate. -/
def errorNumber (code : UInt32) : Int := code.toInt32.toInt.natAbs

/-- The failure behind an exception. -/
def systemFailure : IO.Error → IoError
  | .alreadyExists _ code _ | .otherError code _ | .resourceBusy code _
  | .resourceVanished code _ | .unsupportedOperation code _ | .hardwareFault code _
  | .unsatisfiedConstraints code _ | .illegalOperation code _ | .protocolError code _
  | .timeExpired code _ | .interrupted _ code _ | .noFileOrDirectory _ code _
  | .invalidArgument _ code _ | .permissionDenied _ code _ | .resourceExhausted _ code _
  | .inappropriateType _ code _ | .noSuchThing _ code _ => .system (errorNumber code)
  | .unexpectedEof => .plain .unexpectedEnd
  | .userError text => .described .other text

/-- The outcome of an action with its exception as a failure. -/
def attempt {α : Type} (act : IO α) : IO (Except IoError α) := do
  return (← act.toBaseIO).mapError systemFailure

/-! ## Peers -/

/-- The other end of a line. -/
structure Peer where
  send : List UInt8 → IO Unit
  /-- What arrives next within a time limit. -/
  receive : Option Duration → IO Arrival

/-- Bytes in one block. -/
def block (bytes : List UInt8) : ByteArray := ⟨bytes.toArray⟩

/-- The largest number of bytes that are taken in at once. -/
def blockSize : Nat := 65536

/-- An end of the stream arrives as an empty chunk. -/
def arrivalOf (received : Option ByteArray) : Arrival :=
  .chunk ((received.map (·.data.toList)).getD [])

/-- The peer on a connected socket. -/
def Peer.ofSocket (socket : TCP.Socket.Client) : Peer where
  send bytes := (socket.send (block bytes)).block
  receive limit := do
    let size := UInt64.ofNat blockSize
    let incoming : Async Arrival :=
      match limit with
      | none => do return arrivalOf (← socket.recv? size)
      | some d => do
        let clock ← Selector.sleep (.ofNat d.millis)
        Selectable.one #[
          .case (socket.recvSelector size) fun received => return arrivalOf received,
          .case clock fun _ => return Link.silence]
    match ← attempt incoming.block with
    | .ok arrival => return arrival
    | .error e => return .fault e

/-- The peer on a serial device, which is set up with its speed and its time limits beforehand. A
read that such a limit ends brings nothing. -/
def Peer.ofDevice (input output : IO.FS.Handle) : Peer where
  send bytes := do
    output.write (block bytes)
    output.flush
  receive _ := do
    match ← attempt (input.read 1) with
    | .ok bytes => return if bytes.isEmpty then Link.silence else .chunk bytes.data.toList
    | .error e => return .fault e

/-- Runs a step on the line to a peer until it meets nothing that is still to come. So many bytes
of what it sends went out before. -/
partial def Peer.converse {α : Type} (p : Peer) (step : Line → α × Line) (line : Line)
    (sent : Nat) : IO (α × Line) := do
  let (result, later) := step { line with inbound := line.inbound.extend [Link.silence] }
  let written := later.written
  let news := written.drop sent
  if !news.isEmpty then p.send news
  if later.inbound.coming.getLast? = some Link.silence then
    return (result, { later with inbound := Link.withoutSilence later.inbound })
  else
    let arrival ← p.receive later.timeouts.getLast?.join
    p.converse step { line with inbound := line.inbound.extend [arrival] } written.length

/-! ## The network -/

/-- An endpoint as the system names it. -/
def socketAddress (e : Endpoint) : SocketAddress :=
  let port := UInt16.ofNat e.port
  match e.address with
  | .v4 a b c d => .v4 ⟨.ofParts a b c d, port⟩
  | .v6 groups => .v6 ⟨⟨Vector.ofFn fun i => groups.getD i.val 0⟩, port⟩

/-- An address that the system named. -/
def addressOf : IPAddr → Address
  | .v4 a =>
    match a.octets.toList with
    | [a, b, c, d] => .v4 a b c d
    | _ => .v4 0 0 0 0
  | .v6 a => .v6 a.segments.toList

/-- The addresses that a destination needs to be known. -/
def hostsFor : Destination → IO Hosts
  | .named (.name host) port => do
    match ← attempt (DNS.getAddrInfo host (Text.decimal port)).block with
    | .ok found =>
      let places : List Place := (found.toList.map addressOf).eraseDups.map fun a => ⟨a, 0⟩
      return fun _ => some places
    | .error _ => return Destination.localOnly
  | _ => return Destination.localOnly

/-- A socket that is connected to an endpoint. -/
def dial (limit : Option Duration) (e : Endpoint) : IO (Except IoError TCP.Socket.Client) :=
  attempt do
    let socket ← TCP.Socket.Client.mk
    match limit with
    | none => (socket.connect (socketAddress e)).block
    | some d =>
      let connected ← (socket.connect (socketAddress e)).asTask
      let clock ← (sleep (.ofNat d.millis)).asTask
      match ← IO.waitAny [Task.map some connected, Task.map (fun _ => none) clock] with
      | some outcome => IO.ofExcept outcome
      | none => throw (.timeExpired 110 "")
    return socket

/-- A socket that is connected to a server. -/
def reach (address : String) (limit : Option Duration) :
    IO (Except IoError TCP.Socket.Client) := do
  match Destination.parse address with
  | .error e => return .error e
  | .ok destination =>
    match destination.endpoints (← hostsFor destination) with
    | .error e => return .error e
    | .ok endpoints => Network.firstReached (dial limit) Network.noAddress endpoints

/-! ## Serving -/

/-- What a listening server waits for. -/
inductive Event where
  | joined (socket : TCP.Socket.Client)
  | heard (id : Nat) (arrival : Arrival)

/-- The next event at a server with these workers. -/
def nextEvent (listener : TCP.Socket.Server) (sockets : List (Nat × TCP.Socket.Client)) :
    Async Event :=
  Selectable.one (.case listener.acceptSelector (fun socket => return .joined socket) ::
    sockets.map fun (id, socket) =>
      .case (socket.recvSelector (UInt64.ofNat blockSize)) fun received =>
        return .heard id (arrivalOf received)).toArray

/-- The line of a worker whose output went out. -/
def sentOff (line : Line) : Line :=
  { line with outbound := [], timeouts := line.timeouts.getLast?.toList }

/-- Cycles on one worker until it has used up what it took in. -/
partial def cycle (id : Nat) (peer : Peer) (line : Line) (s : Server (Namespace Stock)) :
    IO (Except Error Unit × Server (Namespace Stock)) := do
  let step (line : Line) :=
    let ready := { s with registry := s.registry.mapLine id fun _ => line }
    let (outcome, next) := ready.runOnce Namespace.host ⟨false, fun other => other = id⟩
    ((outcome, next), (next.registry.line? id).getD line)
  let ((outcome, next), line) ← peer.converse step line 0
  let line := sentOff line
  let registry := { next.registry.mapLine id fun _ => line with departed := [] }
  let next := { next with registry }
  if outcome.isOk && next.patience = .zero then cycle id peer line next else return (outcome, next)

/-- Serves every peer until the server closes. -/
partial def serveAll (listener : TCP.Socket.Server) (sockets : List (Nat × TCP.Socket.Client))
    (s : Server (Namespace Stock)) : IO (Except Error Unit) := do
  match ← (nextEvent listener sockets).block with
  | .joined socket =>
    let id := s.registry.accepted
    let step (line : Line) :=
      let greeted := s.greet line
      (greeted, greeted.2.line)
    let (greeted, line) ← (Peer.ofSocket socket).converse step Link.fresh.line 0
    let s := s.enrol greeted
    let s := { s with registry := s.registry.mapLine id fun _ => sentOff line }
    let sockets := if id < s.registry.accepted then sockets ++ [(id, socket)] else sockets
    serveAll listener sockets s
  | .heard id arrival =>
    match sockets.lookup id, s.registry.line? id with
    | some socket, some line =>
      let line := { line with inbound := line.inbound.extend [arrival] }
      let (outcome, s) ← cycle id (Peer.ofSocket socket) line s
      match outcome with
      | .error e => return .error e
      | .ok () =>
        let sockets := sockets.filter fun (id, _) => s.registry.workers.any fun w => w.number = id
        serveAll listener sockets s
    | _, _ => serveAll listener sockets s

/-- A socket that listens as the settings say. -/
def openListener (settings : ServerSettings) : IO TCP.Socket.Server := do
  let listener ← TCP.Socket.Server.mk
  listener.bind (socketAddress ⟨⟨settings.address, 0⟩, settings.port⟩)
  let backlog := if settings.backlog < 0 then Server.backlogLimit else settings.backlog
  listener.listen (UInt32.ofNat backlog.toNat)
  return listener

/-! ## The world -/

/-- Opens a terminal for both directions. -/
def openDevice (device : String) : IO (Except IoError Peer) := do
  match ← attempt do
    let input ← IO.FS.Handle.mk device .read
    let output ← IO.FS.Handle.mk device .append
    return (input, output) with
  | .error e => return .error ((e.number?.map SerialPort.openFailure).getD e)
  | .ok (input, output) =>
    if ← input.isTty then return .ok (.ofDevice input output)
    else return .error (SerialPort.openFailure 25)

/-- A command's surroundings in the world. -/
def world : Surroundings IO where
  readFile path := attempt do return (← IO.FS.readBinFile path).data.toList
  writeFile path bytes := attempt (IO.FS.writeBinFile path (block bytes))
  visit way settings step := do
    let found ← match way with
      | .network address =>
        pure ((← reach address settings.waitTimeout).map Peer.ofSocket)
      | .serial device _ => openDevice device
    match found with
    | .error e => return .error (.ofIo e)
    | .ok peer => return .ok (← peer.converse step Link.fresh.line 0).1
  attend device _ settings host := do
    match ← openDevice device with
    | .error e => return .error (.ofIo e)
    | .ok peer =>
      let step (line : Line) :=
        let (outcome, last) := serve Namespace.host ⟨.ofLine line settings.format, host⟩
        (outcome, last.conn.line)
      return .ok (← peer.converse step Link.fresh.line 0).1
  listen settings host := do
    match Server.bind settings host with
    | .error e => return .error e
    | .ok server =>
      match ← attempt (openListener settings) with
      | .error e => return .error (.ofIo e)
      | .ok listener =>
        IO.eprintln ("listening on " ++ toString (← listener.getSockName))
        return .ok (← serveAll listener [] server)

end RemoteCall.CommandLine

open RemoteCall.CommandLine in
/-- Runs the command line and prints its report. -/
def main (arguments : List String) : IO UInt32 := do
  let report ← run world arguments
  IO.print report.output
  if report.code = 2 then IO.eprint Report.usage
  if let some complaint := report.complaintLine then IO.eprintln complaint
  return UInt32.ofNat report.code
