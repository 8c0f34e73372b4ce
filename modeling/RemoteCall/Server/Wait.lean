import RemoteCall.Server.Basic

/-!
# Waits

A wait hands in the descriptor of the listener and those of the workers that have one, together with
a time limit, and each descriptor is answered at its place in that row. The answers are brought back
to the workers by position, since a worker without a descriptor is left out of the row but has its
place among the workers. A worker with input that no wait can see is ready in any case. A wait that
a signal interrupts finds nothing ready, so that the cycle ends and the server looks whether it was
told to stop.
-/

namespace RemoteCall

/-- What a cycle learns from its wait. -/
structure Readiness where
  /-- A connection is pending. -/
  listener : Bool
  /-- Whether a worker is to be served, worker by worker. -/
  workers : List Bool

/-- What is found at the descriptors, where only these workers have one. -/
def Poll.seenBy (poll : Poll) (sees : Nat → Bool) : Poll :=
  { poll with hit := fun number => sees number && poll.hit number }

namespace Registry

/-- The places of the workers that have a descriptor, in order. -/
def slots (sees : Nat → Bool) (r : Registry) : List Nat :=
  r.workers.zipIdx.filterMap fun (w, i) => if sees w.number then some i else none

/-- The answers to the descriptors of workers, in order. -/
def answers (sees hit : Nat → Bool) (r : Registry) : List Bool :=
  (r.workers.filter fun w => sees w.number).map fun w => hit w.number

/-- The readiness of the workers: what they hold, and each answer at the place of its descriptor. -/
def flags (sees hit : Nat → Bool) (r : Registry) : List Bool :=
  ((r.answers sees hit).zip (r.slots sees)).foldl
    (fun flags (answer, i) => flags.modify i (· || answer)) (r.workers.map Worker.hasHeld)

/-- Serves one request on each worker that is flagged and not marked, in order. -/
def serveFlagged {σ : Type} (h : Host σ) :
    List Worker → List Bool → σ → List (UInt64 × Error) × List Worker × σ
  | w :: rest, flag :: flags, state =>
    if flag && !w.doomed then
      let (failure, served, state) := w.serve h state
      let (failures, others, state) := serveFlagged h rest flags state
      ((failure.map fun e => (w.id, e)).toList ++ failures, served :: others, state)
    else
      let (failures, others, state) := serveFlagged h rest flags state
      (failures, w :: others, state)
  | workers, _, state => ([], workers, state)

end Registry

namespace Server

variable {σ : Type}

/-- Waits, where only these workers have a descriptor and this is found within a time limit; nothing
is found when the wait is interrupted. -/
def wait (sees : Nat → Bool) (found : Patience → Option Poll) (s : Server σ) : Readiness :=
  match found s.patience with
  | none => { listener := false, workers := s.registry.workers.map fun _ => false }
  | some poll => { listener := poll.listener, workers := s.registry.flags sees poll.hit }

/-- One cycle, from its wait on. -/
def cycle (h : Host σ) (sees : Nat → Bool) (found : Patience → Option Poll) (s : Server σ) :
    Except Error Unit × Server σ :=
  if !s.isOpen then (.error .closed, s)
  else
    let ready := s.wait sees found
    let (failures, workers, host) := Registry.serveFlagged h s.registry.workers ready.workers s.host
    let s := { s with registry := { s.registry with workers }, host }
    let rest : Poll := { listener := ready.listener, hit := fun _ => false }
    match failures.filter fun failure => failure.2.isFatal with
    | [] => (.ok (), s.finishCycle rest)
    | (id, e) :: others =>
      if s.watched then
        let fatal := (id, e) :: others
        (.ok (), { s with reported := s.reported ++ fatal.map Prod.snd }.finishCycle rest)
      else (.error e, s.close)

end Server

end RemoteCall
