import RemoteCall.Server.Wait

/-!
# Looking for work

A look asks every descriptor on its own and without waiting: the listener first, then one worker
after another, and it ends at the first that has something. A wait asks them all together and sleeps
until one of them shows anything. Both are given the same descriptors here, so that what they make
of them can be compared: a look goes by input and hang-ups, a wait also takes an error for work, and
it ends at a descriptor that is of no use.
-/

namespace RemoteCall

/-- What a descriptor shows that is asked for input. -/
structure Shown where
  /-- Unread input or its end, or a connection to accept. -/
  input : Bool := false
  /-- The peer has hung up. -/
  hangUp : Bool := false
  /-- The connection has failed. -/
  error : Bool := false
  /-- The descriptor is of no use. -/
  invalid : Bool := false

namespace Shown

/-- A read would find something at once. -/
def readable (s : Shown) : Bool := s.input || s.hangUp

/-- A cycle has something to do here. -/
def calls (s : Shown) : Bool := s.input || s.hangUp || s.error

/-- A wait ends here. -/
def wakes (s : Shown) : Bool := s.input || s.hangUp || s.error || s.invalid

end Shown

/-- What the descriptors show: that of the listener, and by number those of the workers that have
one. -/
structure Descriptors where
  listener : Shown
  worker : Nat → Option Shown

namespace Descriptors

/-- The workers that have a descriptor. -/
def sees (d : Descriptors) (number : Nat) : Bool := (d.worker number).isSome

/-- What is found at the descriptors by going by this. -/
def poll (counts : Shown → Bool) (d : Descriptors) : Poll where
  listener := counts d.listener
  hit number := (d.worker number).any counts

end Descriptors

/-- Whether a read would find something at once, on a line with this descriptor or with none. -/
def Session.readableAt (shown : Option Shown) : Session Bool := do
  requireOpen
  return (← get).line.hasHeld || shown.any Shown.readable

namespace Registry

/-- Asks the workers that are not marked, in order, until one has a request waiting. One that cannot
be asked has none. -/
def askEach (shown : Nat → Option Shown) : List Worker → Bool × List Worker
  | [] => (false, [])
  | w :: rest =>
    if w.doomed then
      let (found, rest) := askEach shown rest
      (found, w :: rest)
    else if w.hasHeld then (true, w :: rest)
    else
      match Session.readableAt (shown w.number) w.conn with
      | (.ok true, conn) => (true, { w with conn } :: rest)
      | (_, conn) =>
        let (found, rest) := askEach shown rest
        (found, { w with conn } :: rest)

end Registry

namespace Server

variable {σ : Type}

/-- Whether a cycle would find work at once, and the server that was asked. -/
def look (d : Descriptors) (s : Server σ) : Except Error Bool × Server σ :=
  if !s.isOpen then (.error .closed, s)
  else if d.listener.readable then (.ok true, s)
  else
    let (found, workers) := Registry.askEach d.worker s.registry.workers
    (.ok found, { s with registry := { s.registry with workers } })

/-- A wait at these descriptors goes on sleeping. -/
def sleeps (d : Descriptors) (s : Server σ) : Bool := s.waitBlocks (d.poll Shown.wakes)

/-- What a cycle learns from its wait at these descriptors. -/
def waitAt (d : Descriptors) (s : Server σ) : Readiness :=
  s.wait d.sees fun _ => some (d.poll Shown.calls)

end Server

end RemoteCall
