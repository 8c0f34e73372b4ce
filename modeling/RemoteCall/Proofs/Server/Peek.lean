import RemoteCall.Proofs.Server.History
import RemoteCall.Server.Peek

/-!
# Looks and waits

A look and the wait of a cycle decide apart whether there is work, and they agree. Between the
cycles the workers of an open server are open and unmarked, whatever was done with it before, so a
look passes over none of them, and both take up what a worker holds and what its descriptor shows.
The one difference is an error that shows alone, without input and without a hang-up. A look changes
nothing, and a server that was closed stays so and refuses looks and cycles.
-/

namespace RemoteCall

variable {σ : Type} {h : Host σ}

namespace Shown

/-- What can be read calls for attention. -/
theorem calls_of_readable {s : Shown} (hs : s.readable = true) : s.calls = true := by
  rw [calls, ← readable, hs, Bool.true_or]

/-- Without a bare error what calls for attention can be read. -/
theorem readable_of_calls {s : Shown} (hbare : s.error = true → s.readable = true)
    (hs : s.calls = true) : s.readable = true := by
  rw [calls, ← readable, Bool.or_eq_true] at hs
  exact hs.elim id hbare

/-- What calls for attention ends a wait. -/
theorem wakes_of_calls {s : Shown} (hs : s.calls = true) : s.wakes = true := by
  rw [wakes, ← calls, hs, Bool.true_or]

end Shown

/-- What is found at the descriptor of a worker is also found there by whatever follows from it. -/
theorem Descriptors.any_worker_of_imp {d : Descriptors} {number : Nat} {p q : Shown → Bool}
    (himp : ∀ shown, d.worker number = some shown → p shown = true → q shown = true)
    (hp : (d.worker number).any p = true) : (d.worker number).any q = true := by
  obtain ⟨shown, hshown, hfound⟩ := (Option.any_eq_true _ _).mp hp
  exact (Option.any_eq_true _ _).mpr ⟨shown, hshown, himp shown hshown hfound⟩

namespace Session

variable {c : Connection}

/-- An open connection is readable when bytes are held or its descriptor says so. -/
theorem readableAt_run (hopen : c.isOpen = true) (shown : Option Shown) :
    readableAt shown c = (.ok (c.line.hasHeld || shown.any Shown.readable), c) := by
  rw [readableAt, bind_of_ok (requireOpen_run hopen)]
  rfl

/-- A closed connection cannot be asked. -/
theorem readableAt_run_closed (hclosed : c.isOpen = false) (shown : Option Shown) :
    readableAt shown c = (.error .closed, c) :=
  bind_of_error (requireOpen_run_closed hclosed)

end Session

namespace Registry

/-- Asking the workers changes none of them and finds what one of them has. -/
theorem askEach_eq (shown : Nat → Option Shown) (workers : List Worker) :
    askEach shown workers = (workers.any fun w => !w.doomed && (w.hasHeld ||
      (w.conn.isOpen && (shown w.number).any Shown.readable)), workers) := by
  induction workers with
  | nil => rfl
  | cons w rest ih =>
    obtain ⟨number, id, conn, doomed⟩ := w
    rw [askEach, ih, List.any_cons]
    cases doomed with
    | true => rfl
    | false =>
      cases hheld : conn.line.hasHeld with
      | true => simp [Worker.hasHeld, hheld]
      | false =>
        cases hopen : conn.isOpen with
        | false => simp [Worker.hasHeld, hheld, Session.readableAt_run_closed hopen]
        | true =>
          cases hshown : (shown number).any Shown.readable <;>
            simp [Worker.hasHeld, hheld, Session.readableAt_run hopen, hshown]

end Registry

namespace Server

variable {s t u : Server σ} {d : Descriptors}

/-- A look leaves the server as it is. -/
theorem look_eq (d : Descriptors) (s : Server σ) :
    s.look d = (s.peek (d.poll Shown.readable), s) := by
  rw [look, peek, Registry.askEach_eq]
  by_cases hopen : s.isOpen = true
  · have hgo : ¬ (!s.isOpen) = true := by simp [hopen]
    rw [if_neg hgo, if_pos hopen]
    cases hlistener : d.listener.readable with
    | true => simp [Descriptors.poll, hlistener]
    | false => simp [Descriptors.poll, hlistener, Registry.anyReadable]
  · have hstop : (!s.isOpen) = true := by simpa using hopen
    rw [if_pos hstop, if_neg hopen]

/-- A closed server is not looked at. -/
theorem look_of_closed (hs : s.isOpen = false) (d : Descriptors) :
    s.look d = (.error .closed, s) := by
  rw [look_eq, peek, hs]
  rfl

/-- A closed server goes through no cycle. -/
theorem cycle_of_closed (hs : s.isOpen = false) (h : Host σ) (sees : Nat → Bool)
    (found : Patience → Option Poll) : s.cycle h sees found = (.error .closed, s) := by
  rw [cycle, hs]
  rfl

/-! ### What a server comes to -/

/-- What can happen to a server. A handler is installed, it is told to stop, the application acts
for itself, the queue of those who wait to be accepted changes in any way, input arrives for a
worker, it is looked at, it goes through a cycle that ends in whatever way, or it is closed. -/
inductive Step (h : Host σ) : Server σ → Server σ → Prop where
  | watch (s : Server σ) : Step h s s.watch
  | stop (s : Server σ) : Step h s s.stop
  | act (s : Server σ) (f : σ → σ) : Step h s { s with host := f s.host }
  | queue (s : Server σ) (lines : List Line) : Step h s { s with pending := lines }
  | bring (s : Server σ) (number : Nat) (more : List Arrival) : Step h s (s.bring number more)
  | look (s : Server σ) (d : Descriptors) : Step h s (s.look d).2
  | cycle (s : Server σ) (sees : Nat → Bool) (found : Patience → Option Poll) :
      Step h s (s.cycle h sees found).2
  | close (s : Server σ) : Step h s s.close

/-- A server comes to another state in any number of steps. -/
inductive Becomes (h : Host σ) : Server σ → Server σ → Prop where
  | here (s : Server σ) : Becomes h s s
  | next {s t u : Server σ} (before : Becomes h s t) (step : Step h t u) : Becomes h s u

/-- The states of a server since it was bound, open or closed. -/
def Reached (h : Host σ) (s : Server σ) : Prop :=
  ∃ (settings : ServerSettings) (host : σ) (first : Server σ),
    Server.bind settings host = .ok first ∧ Becomes h first s

/-- A closed server is never open again. -/
theorem Step.closed (hstep : Step h s t) (hs : s.isOpen = false) : t.isOpen = false := by
  cases hstep with
  | watch | stop | act | queue | bring => exact hs
  | look d =>
    rw [look_of_closed hs]
    exact hs
  | cycle sees found =>
    rw [cycle_of_closed hs]
    exact hs
  | close => rfl

/-- A closed server stays closed. -/
theorem Becomes.closed (hst : Becomes h s t) (hs : s.isOpen = false) : t.isOpen = false := by
  induction hst with
  | here => exact hs
  | next _ hstep ih => exact hstep.closed ih

/-- A cycle leaves the server in order, or closed. -/
theorem Settled.cycle_cases (hs : s.Settled) (h : Host σ) (sees : Nat → Bool)
    (found : Patience → Option Poll) :
    (s.cycle h sees found).2.Settled ∨ (s.cycle h sees found).2.isOpen = false := by
  cases hfound : found s.patience with
  | none =>
    rw [hs.cycle_interrupted hfound]
    exact .inl hs
  | some poll =>
    rw [cycle_eq hfound]
    by_cases hcalm : s.watched = true ∨ Visit.fatal h (s.visits h (poll.seenBy sees)) = []
    · obtain ⟨t, hrun, ht⟩ := hs.runOnce_of_calm hcalm
      rw [hrun]
      exact .inl (ht.settled (hs.swept (hs.pays h _)))
    · obtain ⟨hunwatched, hfatal⟩ := not_or.mp hcalm
      obtain ⟨e, others, hfailures⟩ := List.exists_cons_of_ne_nil hfatal
      rw [hs.runOnce_of_fatal (Bool.eq_false_iff.mpr hunwatched) hfailures]
      exact .inr rfl

/-- While the server is open its workers are open and unmarked, whatever happens to it. -/
theorem Step.settled (hstep : Step h s t) (hs : s.Settled ∨ s.isOpen = false) :
    t.Settled ∨ t.isOpen = false := by
  rcases hs with hs | hs
  · cases hstep with
    | watch | stop | act | queue => exact .inl ⟨hs.isOpen, hs.unmarked, hs.workers_open⟩
    | bring number more => exact .inl (hs.bring number more)
    | look d =>
      rw [look_eq]
      exact .inl hs
    | cycle sees found => exact hs.cycle_cases h sees found
    | close => exact .inr rfl
  · exact .inr (hstep.closed hs)

/-- A server that was just bound is settled. -/
theorem settled_of_bind {settings : ServerSettings} {host : σ}
    (hbind : Server.bind settings host = .ok s) : s.Settled := by
  obtain rfl := eq_of_bind hbind
  exact ⟨rfl, nofun, nofun⟩

/-- A server stays settled until it is closed. -/
theorem Becomes.settled (hst : Becomes h s t) (hs : s.Settled) :
    t.Settled ∨ t.isOpen = false := by
  induction hst with
  | here => exact .inl hs
  | next _ hstep ih => exact hstep.settled ih

/-- An open server that was reached is in order. -/
theorem Reached.settled (hs : Reached h s) (hopen : s.isOpen = true) : s.Settled := by
  obtain ⟨settings, host, first, hbind, hruns⟩ := hs
  rcases hruns.settled (settled_of_bind hbind) with hsettled | hclosed
  · exact hsettled
  · exact absurd (hopen.symm.trans hclosed) (by simp)

/-! ### Looks against waits -/

/-- What a look finds at an open server between its cycles. -/
theorem Settled.look_eq_ok_true_iff (hs : s.Settled) (d : Descriptors) :
    (s.look d).1 = .ok true ↔ d.listener.readable = true ∨
      ∃ w ∈ s.registry.workers, w.hasHeld = true ∨
        (d.worker w.number).any Shown.readable = true := by
  have hworker : ∀ w ∈ s.registry.workers, (!w.doomed && (w.hasHeld ||
      (w.conn.isOpen && (d.worker w.number).any Shown.readable))) =
        (w.hasHeld || (d.worker w.number).any Shown.readable) := by
    intro w hw
    rw [hs.unmarked w hw, hs.workers_open w hw, Bool.not_false, Bool.true_and, Bool.true_and]
  rw [look_eq, peek, if_pos hs.isOpen]
  simp only [Except.ok.injEq, Bool.or_eq_true, Registry.anyReadable, Descriptors.poll,
    List.any_eq_true]
  refine or_congr_right (exists_congr fun w => and_congr_right fun hw => ?_)
  rw [hworker w hw, Bool.or_eq_true]

/-- What a wait flags at these descriptors. -/
def flagged (d : Descriptors) (s : Server σ) : Prop :=
  (s.waitAt d).listener = true ∨ true ∈ (s.waitAt d).workers

/-- A wait flags what is held and what calls for attention. -/
theorem flagged_iff (d : Descriptors) (s : Server σ) : s.flagged d ↔ d.listener.calls = true ∨
    ∃ w ∈ s.registry.workers, w.hasHeld = true ∨ (d.worker w.number).any Shown.calls = true := by
  have hseen : ∀ number, (d.sees number && (d.worker number).any Shown.calls) =
      (d.worker number).any Shown.calls := by
    intro number
    rw [Descriptors.sees]
    cases d.worker number <;> rfl
  rw [flagged, waitAt, wait_eq rfl, Registry.flags_eq]
  simp only [Descriptors.poll, hseen, List.mem_map, Bool.or_eq_true]

/-- A wait does not sleep when something is held or a descriptor wakes it. -/
theorem sleeps_eq_false_iff (d : Descriptors) (s : Server σ) : s.sleeps d = false ↔
    (∃ w ∈ s.registry.workers, w.hasHeld = true) ∨ d.listener.wakes = true ∨
      ∃ w ∈ s.registry.workers, (d.worker w.number).any Shown.wakes = true := by
  rw [← anyHeld_iff, sleeps, waitBlocks]
  simp only [Descriptors.poll, Bool.and_eq_false_iff, decide_eq_false_iff_not,
    patience_eq_unbounded_iff, Bool.not_eq_false, Bool.not_eq_false', List.any_eq_true, or_assoc]

/-- A wait that flags anything does not sleep. -/
theorem sleeps_of_flagged (hflagged : s.flagged d) : s.sleeps d = false := by
  rw [sleeps_eq_false_iff]
  rcases (flagged_iff d s).mp hflagged with hlistener | ⟨w, hw, hheld | hcalls⟩
  · exact .inr (.inl (Shown.wakes_of_calls hlistener))
  · exact .inl ⟨w, hw, hheld⟩
  · have hwakes := Descriptors.any_worker_of_imp (fun _ _ => Shown.wakes_of_calls) hcalls
    exact .inr (.inr ⟨w, hw, hwakes⟩)

/-- What a look finds is flagged by a wait. -/
theorem Settled.flagged_of_look (hs : s.Settled) (hlook : (s.look d).1 = .ok true) :
    s.flagged d := by
  rw [flagged_iff]
  rcases (hs.look_eq_ok_true_iff d).mp hlook with hlistener | ⟨w, hw, hheld | hreadable⟩
  · exact .inl (Shown.calls_of_readable hlistener)
  · exact .inr ⟨w, hw, .inl hheld⟩
  · have hcalls := Descriptors.any_worker_of_imp (fun _ _ => Shown.calls_of_readable) hreadable
    exact .inr ⟨w, hw, .inr hcalls⟩

/-- No error shows alone at the listener or at a worker: a connection that failed has hung up as
well, or there is something to read. -/
structure NoBareError (d : Descriptors) (s : Server σ) : Prop where
  listener : d.listener.error = true → d.listener.readable = true
  worker : ∀ w ∈ s.registry.workers, ∀ shown, d.worker w.number = some shown →
    shown.error = true → shown.readable = true

/-- What a wait flags is found by a look, unless an error shows alone. -/
theorem Settled.look_of_flagged (hs : s.Settled) (hbare : s.NoBareError d)
    (hflagged : s.flagged d) : (s.look d).1 = .ok true := by
  rw [hs.look_eq_ok_true_iff]
  rcases (flagged_iff d s).mp hflagged with hlistener | ⟨w, hw, hheld | hcalls⟩
  · exact .inl (Shown.readable_of_calls hbare.listener hlistener)
  · exact .inr ⟨w, hw, .inl hheld⟩
  · have hreadable := Descriptors.any_worker_of_imp (fun shown hshown =>
      Shown.readable_of_calls (hbare.worker w hw shown hshown)) hcalls
    exact .inr ⟨w, hw, .inr hreadable⟩

/-- At an open server a look has an answer. Where it finds work, the wait of a cycle that starts now
ends at once and flags the listener or a worker, and it finds all that such a wait would flag,
unless an error shows alone. A look leaves every server as it is, with all that its lines hold and
have sent, its workers and its application. Once a server was closed every look and every cycle is
refused, whatever happens to it afterwards. -/
theorem look_agrees (hs : Reached h s) :
    (s.isOpen = true → ∀ d : Descriptors,
      (∃ found, (s.look d).1 = .ok found) ∧
      ((s.look d).1 = .ok true → s.sleeps d = false ∧ s.flagged d) ∧
      (s.NoBareError d → ((s.look d).1 = .ok true ↔ s.sleeps d = false ∧ s.flagged d))) ∧
    (∀ d : Descriptors, (s.look d).2 = s) ∧
    ∀ t : Server σ, Becomes h s.close t →
      (∀ d : Descriptors, t.look d = (.error .closed, t)) ∧
      ∀ sees found, t.cycle h sees found = (.error .closed, t) := by
  refine ⟨fun hopen d => ?_, fun d => congrArg Prod.snd (look_eq d s), fun t hst => ?_⟩
  · have hsettled := hs.settled hopen
    have hfound : (s.look d).1 = .ok true → s.sleeps d = false ∧ s.flagged d := fun hlook =>
      have hflagged := hsettled.flagged_of_look hlook
      ⟨sleeps_of_flagged hflagged, hflagged⟩
    refine ⟨?_, hfound, fun hbare => ⟨hfound, fun hwait => ?_⟩⟩
    · rw [look_eq, peek, if_pos hopen]
      exact ⟨_, rfl⟩
    · exact hsettled.look_of_flagged hbare hwait.2
  · have hclosed := hst.closed rfl
    exact ⟨look_of_closed hclosed, cycle_of_closed hclosed h⟩

/-- The server behind its first cycle, with one worker who has asked for nothing yet. -/
def greetedServer : Server (List String) := (answer (fun _ => false) calledServer).2

/-- The greeted server is reached by a cycle. -/
theorem reached_greetedServer : Reached recorder greetedServer :=
  ⟨{}, [], { calledServer with pending := [] }, rfl,
    .next (.next (.here _) (.queue _ callers)) (.cycle _ _ _)⟩

/-- The busy server is reached by two cycles. -/
theorem reached_busyServer : Reached recorder busyServer := by
  obtain ⟨settings, host, first, hbind, hruns⟩ := reached_greetedServer
  exact ⟨settings, host, first, hbind, .next hruns (.cycle _ _ _)⟩

/-- Nothing is shown anywhere. -/
def quiet : Descriptors := ⟨{}, fun _ => some {}⟩

/-- The connection of the first worker has failed. -/
def broken : Descriptors :=
  ⟨{}, fun number =>
    if number = 0 then some { input := true, hangUp := true, error := true } else some {}⟩

/-- A broken connection is found by a look, as is a request that was taken in already, and a server
that is closed refuses both. -/
theorem look_agrees_broken :
    (greetedServer.look broken).1 = .ok true ∧
      (busyServer.look quiet).1 = .ok true ∧
      (greetedServer.look quiet).1 ≠ .ok true ∧
      greetedServer.close.look broken = (.error .closed, greetedServer.close) := by
  obtain ⟨hlooks, -, hclosed⟩ := look_agrees reached_greetedServer
  obtain ⟨hlooks', -, -⟩ := look_agrees reached_busyServer
  have hbroken : greetedServer.NoBareError broken := by
    refine ⟨by decide, fun w hw shown hshown herror => ?_⟩
    simp only [broken] at hshown
    split at hshown
    · cases hshown
      rfl
    · cases hshown
      cases herror
  have hquiet (s : Server (List String)) : s.NoBareError quiet := by
    refine ⟨by decide, fun w hw shown hshown herror => ?_⟩
    cases hshown
    cases herror
  have hflagged : greetedServer.flagged broken := by
    unfold flagged
    decide +kernel
  have hheld : busyServer.flagged quiet := by
    unfold flagged
    decide +kernel
  have hsleeps : greetedServer.sleeps quiet = true := by decide +kernel
  have hopen : greetedServer.isOpen = true := by decide +kernel
  have hbusy : busyServer.isOpen = true := by decide +kernel
  refine ⟨?_, ?_, fun hlook => ?_, (hclosed _ (.here _)).1 _⟩
  · exact ((hlooks hopen broken).2.2 hbroken).mpr ⟨sleeps_of_flagged hflagged, hflagged⟩
  · exact ((hlooks' hbusy quiet).2.2 (hquiet _)).mpr ⟨sleeps_of_flagged hheld, hheld⟩
  · exact Bool.false_ne_true (((hlooks hopen quiet).2.1 hlook).1.symm.trans hsleeps)

end Server

end RemoteCall
