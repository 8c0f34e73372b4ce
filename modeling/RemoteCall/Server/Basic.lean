import RemoteCall.Server.Registry
import RemoteCall.Settings.Basic

/-!
# Servers

A server serves any number of peers with one application. It works in cycles: wait until a
connection is pending or a worker has input, serve one request on each ready worker, let the failed
ones go, and accept at most one connection. What a wait finds at the descriptors is an input of the
cycle, so every order of events can be looked at. A fatal failure goes to the error handler; without
one it closes the server.
-/

namespace RemoteCall

/-- How long a wait goes on that finds nothing. -/
inductive Patience where
  /-- It looks once. -/
  | zero
  /-- It sleeps until there is something. -/
  | unbounded
  deriving DecidableEq, Repr

/-- What a wait finds at the descriptors. -/
structure Poll where
  /-- A connection is pending. -/
  listener : Bool
  /-- The workers, by number, with unread input or a peer that hung up. -/
  hit : Nat → Bool

/-- A server with the state of its application. -/
structure Server (σ : Type) where
  host : σ
  /-- The format to settle with. -/
  native : Format
  /-- Bound on each read and write on accepted connections. -/
  timeout : Option Duration
  isOpen : Bool := true
  registry : Registry := {}
  /-- Lines that wait to be accepted, in order of arrival. -/
  pending : List Line := []
  /-- An error handler is installed. -/
  watched : Bool := false
  /-- What the handler has received so far, in order. -/
  reported : List Error := []
  /-- The server was told to stop. -/
  stopped : Bool := false

namespace Server

variable {σ : Type}

/-- The greatest length of the queue of pending connections. -/
def backlogLimit : Int := 4096

/-- The failure of listening with a queue length that the system does not take. -/
def badBacklog : IoError := .system 22

/-- A server that listens as the settings say. -/
def bind (s : ServerSettings) (host : σ) : Except Error (Server σ) :=
  if s.backlog < -1 ∨ backlogLimit < s.backlog then .error (.ofIo badBacklog)
  else .ok { host, native := s.format, timeout := s.communicationTimeout }

/-- Installs an error handler. -/
def watch (s : Server σ) : Server σ := { s with watched := true }

/-- Tells the server to stop before its next cycle. -/
def stop (s : Server σ) : Server σ := { s with stopped := true }

/-- A peer connects and waits to be accepted. -/
def arrive (s : Server σ) (line : Line) : Server σ := { s with pending := s.pending ++ [line] }

/-- The number of workers. -/
def workerCount (s : Server σ) : Nat := s.registry.size

/-- Stops listening and closes every worker. -/
def close (s : Server σ) : Server σ :=
  { s with isOpen := false, pending := [], registry := s.registry.closeAll }

/-- A worker that the pass after a wait serves. -/
def isReady (poll : Poll) (w : Worker) : Bool := w.hasHeld || poll.hit w.number

/-- The time limit of the next wait, which must not sleep while some worker has input that it cannot
see. -/
def patience (s : Server σ) : Patience := if s.registry.anyHeld then .zero else .unbounded

/-- A wait that finds this at the descriptors goes on sleeping. -/
def waitBlocks (s : Server σ) (poll : Poll) : Bool :=
  s.patience = .unbounded && !poll.listener &&
    !s.registry.workers.any fun w => poll.hit w.number

/-- Whether a cycle would find work at once. -/
def peek (s : Server σ) (poll : Poll) : Except Error Bool :=
  if s.isOpen then .ok (poll.listener || s.registry.anyReadable poll.hit) else .error .closed

/-- Awaits the handshake on a line that was accepted. -/
def greet (s : Server σ) (line : Line) : Except Error Unit × Connection :=
  Session.acceptHandshake (.ofLine (line.setTimeout s.timeout) s.native)

/-- Takes in a connection after its handshake; one that failed is dropped. -/
def enrol (s : Server σ) : Except Error Unit × Connection → Server σ
  | (.ok (), conn) => { s with registry := s.registry.insert conn }
  | (.error _, _) => s

/-- Accepts one pending connection. -/
def accept (s : Server σ) : Server σ :=
  match s.pending with
  | [] => s
  | line :: rest => { s with pending := rest }.enrol (s.greet line)

/-- The end of a cycle: failed workers leave and one connection is accepted. -/
def finishCycle (s : Server σ) (poll : Poll) : Server σ :=
  let s := { s with registry := s.registry.sweep }
  if poll.listener then s.accept else s

/-- One cycle, after a wait that found this. -/
def runOnce (h : Host σ) (poll : Poll) (s : Server σ) : Except Error Unit × Server σ :=
  if !s.isOpen then (.error .closed, s)
  else
    let (fatal, registry, host) := s.registry.serveReady h (isReady poll) s.host
    let s := { s with registry := registry, host := host }
    match fatal with
    | [] => (.ok (), s.finishCycle poll)
    | (_, e) :: _ =>
      if s.watched then
        (.ok (), { s with reported := s.reported ++ fatal.map Prod.snd }.finishCycle poll)
      else (.error e, s.close)

/-- Cycles with these waits until the server is closed, told to stop or out of waits, and then
closes it. -/
def run (h : Host σ) : List Poll → Server σ → Except Error Unit × Server σ
  | [], s => (.ok (), s.close)
  | poll :: rest, s =>
    if !s.isOpen || s.stopped then (.ok (), s.close)
    else
      match s.runOnce h poll with
      | (.ok (), s) => run h rest s
      | (.error e, s) => (.error e, s)

end Server

end RemoteCall
