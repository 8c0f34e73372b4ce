import RemoteCall.Serve

/-!
# Workers

A server keeps one worker per negotiated connection, in the order of acceptance. The id that it
gives each of them comes from a counter of 64 bits, which starts over when it runs over; which
worker is which is told here by a number without bounds, so that nothing else depends on the ids. A
pass serves one request on every worker that is ready, in that order; a worker whose request fails
in any way is marked, and marked workers are closed and leave at the next sweep. Those that left are
remembered with the connection they left behind.
-/

namespace RemoteCall

/-- A negotiated connection under service. -/
structure Worker where
  /-- How many were accepted before. -/
  number : Nat
  /-- The name that the server knows it by. -/
  id : UInt64
  conn : Connection
  /-- Marked to leave at the next sweep. -/
  doomed : Bool := false

namespace Worker

/-- Input was taken in that no wait on the connection can see. -/
def hasHeld (w : Worker) : Bool := w.conn.line.hasHeld

/-- Closes the connection. -/
def close (w : Worker) : Worker := { w with conn := w.conn.close }

/-- Serves one request. A failure marks the worker. -/
def serve {σ : Type} (h : Host σ) (w : Worker) (state : σ) : Option Error × Worker × σ :=
  match serveOne h ⟨w.conn, state⟩ with
  | (.ok (), s) => (none, { w with conn := s.conn }, s.host)
  | (.error e, s) => (some e, { w with conn := s.conn, doomed := true }, s.host)

end Worker

/-- All workers of a server. -/
structure Registry where
  /-- In the order of acceptance. -/
  workers : List Worker := []
  /-- The number of workers accepted so far. -/
  accepted : Nat := 0
  /-- The id of the next worker. -/
  nextId : UInt64 := 0
  /-- Closed workers that have left, in the order they left. -/
  departed : List Worker := []

namespace Registry

instance : Inhabited Registry := ⟨{}⟩

/-- The number of workers, marked ones included. -/
def size (r : Registry) : Nat := r.workers.length

/-- Adds a worker for a negotiated connection. -/
def insert (r : Registry) (conn : Connection) : Registry :=
  { r with
    workers := r.workers ++ [{ number := r.accepted, id := r.nextId, conn }]
    accepted := r.accepted + 1
    nextId := r.nextId + 1 }

/-- The line of a worker, or of one that has left. -/
def line? (number : Nat) (r : Registry) : Option Line :=
  ((r.workers ++ r.departed).find? fun w => w.number = number).map (·.conn.line)

/-- Changes the line of a worker. -/
def mapLine (number : Nat) (f : Line → Line) (r : Registry) : Registry :=
  { r with
    workers := r.workers.map fun w =>
      if w.number = number then { w with conn := { w.conn with line := f w.conn.line } } else w }

/-- Some worker has taken in input that no wait can see. -/
def anyHeld (r : Registry) : Bool := r.workers.any Worker.hasHeld

/-- Some worker that is not marked has a request waiting. -/
def anyReadable (hit : Nat → Bool) (r : Registry) : Bool :=
  r.workers.any fun w => !w.doomed && (w.hasHeld || (w.conn.isOpen && hit w.number))

/-- Serves one request on each of these workers that is ready and not marked, in order. The failures
come with the ids of their workers. -/
def serveEach {σ : Type} (h : Host σ) (ready : Worker → Bool) :
    List Worker → σ → List (UInt64 × Error) × List Worker × σ
  | [], state => ([], [], state)
  | w :: rest, state =>
    if ready w && !w.doomed then
      let (failure, served, state) := w.serve h state
      let (failures, others, state) := serveEach h ready rest state
      ((failure.map fun e => (w.id, e)).toList ++ failures, served :: others, state)
    else
      let (failures, others, state) := serveEach h ready rest state
      (failures, w :: others, state)

/-- A pass over all workers. Only the fatal failures are handed back. -/
def serveReady {σ : Type} (h : Host σ) (ready : Worker → Bool) (r : Registry) (state : σ) :
    List (UInt64 × Error) × Registry × σ :=
  let (failures, workers, state) := serveEach h ready r.workers state
  (failures.filter fun failure => failure.2.isFatal, { r with workers := workers }, state)

/-- Closes and removes every marked worker. -/
def sweep (r : Registry) : Registry :=
  { r with
    workers := r.workers.filter fun w => !w.doomed
    departed := r.departed ++ (r.workers.filter Worker.doomed).map Worker.close }

/-- Closes and removes every worker. -/
def closeAll (r : Registry) : Registry :=
  { r with workers := [], departed := r.departed ++ r.workers.map Worker.close }

end Registry

end RemoteCall
