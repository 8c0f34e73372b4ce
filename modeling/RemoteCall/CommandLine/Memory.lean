import RemoteCall.CommandLine.Files
import RemoteCall.CommandLine.Run
import RemoteCall.Line.Destination
import RemoteCall.Line.Isolated
import RemoteCall.Line.Link
import RemoteCall.Line.Serial
import RemoteCall.Server.Basic

/-!
# Surroundings in memory

Surroundings that exist only as a value: files, the hosts and the network that clients find, and a
device that is wired to a server. Clients on the device come one after another; each opens the same
line anew.
-/

namespace RemoteCall.CommandLine

/-- Everything that a command meets. -/
structure Memory where
  files : Files := .machine []
  hosts : Hosts := Destination.localOnly
  network : Network Endpoint := .isolated
  /-- Whether an address can be listened on. -/
  listenable : Address → Except IoError Unit := Network.listenable
  /-- The name of the wired device. -/
  device : String := "/dev/ttyS0"
  /-- What the server on the device has sent in answer to all this. -/
  answer : List UInt8 → List UInt8 := fun _ => []
  link : Link := .fresh

namespace Memory

/-- More rounds of answers than one command has exchanges. -/
def rounds : Nat := 8

/-- The failure of opening a path that is not the wired device. -/
def noTerminal (w : Memory) (path : String) : IoError :=
  let e := w.files.claim path
  (e.number?.map SerialPort.openFailure).getD e

/-- The failure of a connection that was reached but leads to no server. -/
def noServer : IoError := .system 111

/-- Runs a client on the device. -/
def onDevice (w : Memory) (step : Line → Except Failure String × Line) :
    Except Failure String × Memory :=
  let link := { w.link with line := { w.link.line with isOpen := true } }
  let (outcome, link) := link.perform w.answer step rounds
  (outcome, { w with link := link })

/-- The way to a server over the network, where there are no servers. -/
def overNetwork (w : Memory) (address : String) : Except Error (Except Failure String) := do
  let destination ← (Destination.parse address).mapError Error.ofIo
  let endpoints ← (destination.endpoints w.hosts).mapError Error.ofIo
  discard (w.network.connect endpoints)
  throw (.ofIo noServer)

/-- What becomes of listening: at an address of this machine nobody ever comes. -/
def listening (w : Memory) (settings : ServerSettings) (host : Namespace Stock) :
    Except Error (Except Error Unit) := do
  (w.listenable settings.address).mapError Error.ofIo
  discard (Server.bind settings host)
  return .ok ()

/-- A command's surroundings in memory. -/
def surroundings : Surroundings (StateM Memory) where
  readFile path := fun w => (w.files.read path, w)
  writeFile path bytes := fun w =>
    let (outcome, files) := w.files.write path bytes
    (outcome, { w with files := files })
  visit way _ step := fun w =>
    match way with
    | .network address => (w.overNetwork address, w)
    | .serial device _ =>
      if device = w.device then
        let (outcome, w) := w.onDevice step
        (.ok outcome, w)
      else (.error (.ofIo (w.noTerminal device)), w)
  attend device _ _ _ := fun w => (.error (.ofIo (w.noTerminal device)), w)
  listen settings host := fun w => (w.listening settings host, w)

end Memory

end RemoteCall.CommandLine
