import RemoteCall.Proofs.Serve.Accepted
import RemoteCall.Server.Wait

/-!
# Passes over the workers

What one pass of a server does is read off the visits that it pays: one to every worker, in order,
each with the host as the visit before has left it. A visit serves one request or leaves the worker
alone. The failures of a pass, the workers behind it and those that leave at its end are those of
its visits. The answers of a wait reach the workers by position, and they reach the right ones: a
cycle from its wait on is a cycle in which each worker is looked at by its number.
-/

namespace RemoteCall

variable {σ : Type}

namespace Worker

variable {h : Host σ} {w : Worker} {state : σ} {s : Served σ}

/-- A request that is served leaves its worker unmarked. -/
theorem serve_of_ok (hserve : serveOne h ⟨w.conn, state⟩ = (.ok (), s)) :
    w.serve h state = (none, { w with conn := s.conn }, s.host) := by
  rw [serve, hserve]

/-- A request that fails marks its worker. -/
theorem serve_of_error {e : Error} (hserve : serveOne h ⟨w.conn, state⟩ = (.error e, s)) :
    w.serve h state = (some e, { w with conn := s.conn, doomed := true }, s.host) := by
  rw [serve, hserve]

end Worker

namespace Registry

/-- A sweep loses no worker. -/
theorem perm_sweep (r : Registry) :
    ((r.sweep.workers ++ r.sweep.departed).map Worker.number).Perm
      ((r.workers ++ r.departed).map Worker.number) := by
  have hclose : ((r.workers.filter Worker.doomed).map Worker.close).map Worker.number =
      (r.workers.filter Worker.doomed).map Worker.number := by
    rw [List.map_map]
    rfl
  have hsplit : (r.workers.filter (!·.doomed) ++ r.workers.filter Worker.doomed).Perm r.workers :=
    List.perm_append_comm.trans (List.filter_append_perm _ _)
  rw [sweep, List.map_append, List.map_append, hclose, ← List.map_append, ← List.map_append]
  apply List.Perm.map
  exact (List.perm_append_comm_assoc _ _ _).trans
    ((hsplit.append_left _).trans List.perm_append_comm)

/-- A newcomer is one worker more. -/
theorem perm_insert (r : Registry) (conn : Connection) :
    (((r.insert conn).workers ++ (r.insert conn).departed).map Worker.number).Perm
      (r.accepted :: (r.workers ++ r.departed).map Worker.number) := by
  rw [insert, List.append_assoc]
  exact List.perm_middle.map Worker.number

end Registry

/-- What a pass finds when it comes to a worker. -/
structure Visit (σ : Type) where
  worker : Worker
  host : σ
  /-- A request is served. -/
  served : Bool

namespace Visit

variable {h : Host σ} {v : Visit σ}

/-- The failure of the request, if one is served and fails. -/
def failure? (h : Host σ) (v : Visit σ) : Option Error :=
  if v.served then (v.worker.serve h v.host).1 else none

/-- The worker behind the visit. -/
def after (h : Host σ) (v : Visit σ) : Worker :=
  if v.served then (v.worker.serve h v.host).2.1 else v.worker

/-- The host behind the visit. -/
def next (h : Host σ) (v : Visit σ) : σ :=
  if v.served then (v.worker.serve h v.host).2.2 else v.host

/-- The worker stays at the end of the pass. -/
def stays (h : Host σ) (v : Visit σ) : Bool := (v.failure? h).isNone

/-- The workers behind some visits that stay at the end of the pass, in order. -/
def remaining (h : Host σ) (vs : List (Visit σ)) : List Worker :=
  (vs.filter (stays h)).map (after h)

/-- The workers behind some visits that leave at the end of the pass, closed, in order. -/
def departing (h : Host σ) (vs : List (Visit σ)) : List Worker :=
  (vs.filter fun v => !v.stays h).map fun v => (v.after h).close

/-- The host behind some visits that began with this one. -/
def hostAfter (h : Host σ) (vs : List (Visit σ)) (s : σ) : σ := vs.foldl (fun _ v => v.next h) s

/-- The fatal failures of some visits, in order. -/
def fatal (h : Host σ) (vs : List (Visit σ)) : List Error :=
  (vs.filterMap (failure? h)).filter Error.isFatal

/-- The host goes from visit to visit. -/
def Leads (h : Host σ) : σ → List (Visit σ) → σ → Prop
  | s, [], t => t = s
  | s, v :: vs, t => v.host = s ∧ Leads h (v.next h) vs t

/-- Workers, and whether each is served, determine the visits. -/
theorem Leads.unique {us : List (Visit σ)} {ready : Worker → Bool} {s t t' : σ}
    {vs : List (Visit σ)} (hvs : Leads h s vs t) (hus : Leads h s us t')
    (hworkers : vs.map worker = us.map worker) (hserved : ∀ v ∈ vs, v.served = ready v.worker)
    (hserved' : ∀ v ∈ us, v.served = ready v.worker) : vs = us := by
  induction vs generalizing s us with
  | nil => exact (List.map_eq_nil_iff.mp hworkers.symm).symm
  | cons v vs ih =>
    cases us with
    | nil => exact nomatch hworkers
    | cons u us =>
      obtain ⟨hworker, hrest⟩ := List.cons.inj hworkers
      obtain ⟨hv, hall⟩ := List.forall_mem_cons.mp hserved
      obtain ⟨hu, hall'⟩ := List.forall_mem_cons.mp hserved'
      have hsame : v = u := by
        cases v with
        | mk w host served =>
          cases u with
          | mk w' host' served' =>
            obtain rfl : w = w' := hworker
            obtain rfl : host = s := hvs.1
            obtain rfl : host' = host := hus.1
            rw [show served = served' from hv.trans hu.symm]
      subst hsame
      rw [ih hvs.2 hus.2 hrest hall hall']

/-- A worker is served well and stays as it is, or it fails and is marked. -/
theorem serve_cases (h : Host σ) (w : Worker) (s : σ) :
    (∃ t, serveOne h ⟨w.conn, s⟩ = (.ok (), t) ∧
        w.serve h s = (none, { w with conn := t.conn }, t.host)) ∨
      ∃ e t, serveOne h ⟨w.conn, s⟩ = (.error e, t) ∧
        w.serve h s = (some e, { w with conn := t.conn, doomed := true }, t.host) := by
  cases hserve : serveOne h ⟨w.conn, s⟩ with
  | mk result t =>
    cases result with
    | ok u => exact .inl ⟨t, rfl, Worker.serve_of_ok hserve⟩
    | error e => exact .inr ⟨e, t, rfl, Worker.serve_of_error hserve⟩

@[simp] theorem number_after (h : Host σ) (v : Visit σ) : (v.after h).number = v.worker.number := by
  unfold after
  split
  · rcases serve_cases h v.worker v.host with ⟨t, -, hrun⟩ | ⟨e, t, -, hrun⟩ <;> rw [hrun]
  · rfl

/-- A visit leaves the worker its id. -/
theorem id_after (h : Host σ) (v : Visit σ) : (v.after h).id = v.worker.id := by
  unfold after
  split
  · rcases serve_cases h v.worker v.host with ⟨t, -, hrun⟩ | ⟨e, t, -, hrun⟩ <;> rw [hrun]
  · rfl

/-- A failure marks the worker, and nothing else does. -/
theorem doomed_after (hlive : v.worker.doomed = false) :
    (v.after h).doomed = !v.stays h := by
  unfold after stays failure?
  split
  · rcases serve_cases h v.worker v.host with ⟨t, -, hrun⟩ | ⟨e, t, -, hrun⟩
    · rw [hrun]
      exact hlive
    · rw [hrun]
      rfl
  · exact hlive

/-- Those that leave are closed. -/
theorem isOpen_of_mem_departing {vs : List (Visit σ)} {w : Worker} (hw : w ∈ departing h vs) :
    w.conn.isOpen = false := by
  obtain ⟨v, -, rfl⟩ := List.mem_map.mp hw
  rfl

/-- What a visit that stays has left: the worker as it was, or a request served in full. -/
def Answered (h : Host σ) (v : Visit σ) : Prop :=
  (v.served = false ∧ v.after h = v.worker ∧ v.next h = v.host) ∨
    v.served = true ∧ ∃ r : Request v.worker.conn.format,
      Serving.Fulfils v.worker.conn.native h ⟨v.worker.conn, v.host⟩ r
        ⟨(v.after h).conn, v.next h⟩

/-- A worker that stays was not visited for a request, or its request was served in full. -/
theorem answered_of_stays (hstays : v.stays h = true) : v.Answered h := by
  unfold Answered
  cases hserved : v.served with
  | false => exact .inl ⟨rfl, by simp [after, hserved], by simp [next, hserved]⟩
  | true =>
    right
    rcases serve_cases h v.worker v.host with ⟨t, hserve, hrun⟩ | ⟨e, t, -, hrun⟩
    · obtain ⟨r, hr⟩ := Serving.serveOne_ok hserve
      refine ⟨rfl, r, ?_⟩
      simp only [after, next, hserved, hrun, ↓reduceIte]
      exact hr
    · simp [stays, failure?, hserved, hrun] at hstays

/-- A worker that stays is open if it was. -/
theorem isOpen_after (hopen : v.worker.conn.isOpen = true) (hstays : v.stays h = true) :
    (v.after h).conn.isOpen = true := by
  rcases answered_of_stays hstays with ⟨-, hsame, -⟩ | ⟨-, r, hr⟩
  · rw [hsame]
    exact hopen
  · exact hr.isOpen

end Visit

namespace Registry

variable {h : Host σ} {ready : Worker → Bool} {r : Registry}

/-- The visits of a pass over these workers. -/
def visits (h : Host σ) (ready : Worker → Bool) : List Worker → σ → List (Visit σ)
  | [], _ => []
  | w :: rest, s =>
    let v : Visit σ := { worker := w, host := s, served := ready w && !w.doomed }
    v :: visits h ready rest (v.next h)

@[simp] theorem map_worker_visits (h : Host σ) (ready : Worker → Bool) (workers : List Worker)
    (s : σ) : (visits h ready workers s).map Visit.worker = workers := by
  induction workers generalizing s with
  | nil => rfl
  | cons w rest ih => rw [visits, List.map_cons, ih]

/-- The visits are served that find a worker ready and unmarked. -/
theorem served_of_mem_visits {workers : List Worker} {s : σ} {v : Visit σ}
    (hv : v ∈ visits h ready workers s) : v.served = (ready v.worker && !v.worker.doomed) := by
  induction workers generalizing s with
  | nil => exact nomatch hv
  | cons w rest ih =>
    rcases List.mem_cons.mp hv with rfl | hv
    · rfl
    · exact ih hv

/-- The visits lead the host from one to the next. -/
theorem leads_visits (h : Host σ) (ready : Worker → Bool) (workers : List Worker) (s : σ) :
    Visit.Leads h s (visits h ready workers s)
      (Visit.hostAfter h (visits h ready workers s) s) := by
  induction workers generalizing s with
  | nil => rfl
  | cons w rest ih => exact ⟨rfl, ih _⟩

/-- A sweep behind visits to live workers keeps those that stay and closes the others. -/
theorem sweep_visits {vs : List (Visit σ)} (r : Registry)
    (hlive : ∀ v ∈ vs, v.worker.doomed = false) :
    ({ r with workers := vs.map (Visit.after h) } : Registry).sweep =
      { r with
        workers := Visit.remaining h vs
        departed := r.departed ++ Visit.departing h vs } := by
  have hstay : (vs.map (Visit.after h)).filter (fun w => !w.doomed) = Visit.remaining h vs := by
    rw [List.filter_map, Visit.remaining]
    refine congrArg _ (List.filter_congr fun v hv => ?_)
    rw [Function.comp_apply, Visit.doomed_after (hlive v hv), Bool.not_not]
  have hleave : (vs.map (Visit.after h)).filter Worker.doomed =
      (vs.filter fun v => !v.stays h).map (Visit.after h) := by
    rw [List.filter_map]
    exact congrArg _ (List.filter_congr fun v hv => Visit.doomed_after (hlive v hv))
  rw [sweep, hstay, hleave, List.map_map]
  rfl

/-- Where no worker is marked none leaves. -/
theorem sweep_of_unmarked (hlive : ∀ w ∈ r.workers, w.doomed = false) : r.sweep = r := by
  have hstay : r.workers.filter (fun w => !w.doomed) = r.workers :=
    List.filter_eq_self.mpr fun w hw => by rw [hlive w hw]; rfl
  have hnone : r.workers.filter Worker.doomed = [] :=
    List.filter_eq_nil_iff.mpr fun w hw => by simp [hlive w hw]
  rw [sweep, hstay, hnone, List.map_nil, List.append_nil]

/-- A pass is its visits. -/
theorem serveEach_eq (h : Host σ) (ready : Worker → Bool) (workers : List Worker) (s : σ) :
    serveEach h ready workers s =
      ((visits h ready workers s).filterMap fun v => (v.failure? h).map fun e => (v.worker.id, e),
        (visits h ready workers s).map (Visit.after h),
        Visit.hostAfter h (visits h ready workers s) s) := by
  induction workers generalizing s with
  | nil => rfl
  | cons w rest ih =>
    cases hready : ready w && !w.doomed with
    | true =>
      cases hserve : w.serve h s with
      | mk failure behind =>
        let v : Visit σ := { worker := w, host := s, served := true }
        have hfailure : v.failure? h = failure := congrArg Prod.fst hserve
        have hbehind : (v.after h, v.next h) = behind := congrArg Prod.snd hserve
        have hvisits : visits h ready (w :: rest) s = v :: visits h ready rest (v.next h) := by
          rw [visits, hready]
        rw [serveEach, if_pos hready, hserve, hvisits, ← hbehind]
        simp only [ih, List.filterMap_cons, List.map_cons, hfailure]
        cases failure <;> rfl
    | false =>
      have hidle : ¬ (ready w && !w.doomed) = true := by simp [hready]
      have hvisits : visits h ready (w :: rest) s =
          { worker := w, host := s, served := false } :: visits h ready rest s := by
        rw [visits, hready]
        rfl
      rw [serveEach, if_neg hidle, hvisits, ih]
      rfl

/-! ### Answers by position -/

/-- Serving by flags is serving by what they flag. -/
theorem serveFlagged_eq (h : Host σ) (ready : Worker → Bool) (workers : List Worker) (s : σ) :
    serveFlagged h workers (workers.map ready) s = serveEach h ready workers s := by
  induction workers generalizing s with
  | nil => rfl
  | cons w rest ih =>
    rw [List.map_cons, serveFlagged, serveEach]
    simp only [ih]

/-- Where no worker is flagged none is served. -/
theorem serveFlagged_of_none (h : Host σ) (workers : List Worker) (s : σ) :
    serveFlagged h workers (workers.map fun _ => false) s = ([], workers, s) := by
  induction workers with
  | nil => rfl
  | cons w rest ih =>
    rw [List.map_cons, serveFlagged]
    simp only [Bool.false_and, Bool.false_eq_true, ↓reduceIte, ih]

/-- What is modified behind a front is what stands there. -/
theorem modify_behind {α : Type} (f : α → α) (front : List α) (a : α) (rest : List α) :
    (front ++ a :: rest).modify front.length f = front ++ f a :: rest := by
  induction front with
  | nil => rfl
  | cons b front ih => simp [ih]

/-- Behind the places that are settled already, every answer comes to the place of its worker. -/
theorem foldl_answers (sees hit : Nat → Bool) (held : Worker → Bool) (workers : List Worker)
    (front : List Bool) :
    (((workers.filter fun w => sees w.number).map fun w => hit w.number).zip
        ((workers.zipIdx front.length).filterMap fun (w, i) =>
          if sees w.number then some i else none)).foldl
      (fun flags (answer, i) => flags.modify i (· || answer)) (front ++ workers.map held) =
    front ++ workers.map fun w => held w || (sees w.number && hit w.number) := by
  induction workers generalizing front with
  | nil => rfl
  | cons w rest ih =>
    cases hsees : sees w.number with
    | true =>
      have hrest := ih (front ++ [held w || hit w.number])
      simpa [List.zipIdx_cons, hsees, modify_behind] using hrest
    | false =>
      have hrest := ih (front ++ [held w])
      simpa [List.zipIdx_cons, hsees] using hrest

/-- Every worker is flagged that holds input or has some at its descriptor, and no other. -/
theorem flags_eq (sees hit : Nat → Bool) (r : Registry) :
    r.flags sees hit = r.workers.map fun w => w.hasHeld || (sees w.number && hit w.number) :=
  foldl_answers sees hit Worker.hasHeld r.workers []

end Registry

namespace Server

variable {h : Host σ} {s : Server σ}

/-- A server that was just bound has no workers, and nobody waits. -/
theorem eq_of_bind {settings : ServerSettings} {host : σ} (hbind : bind settings host = .ok s) :
    s = { host, native := settings.format, timeout := settings.communicationTimeout } := by
  unfold bind at hbind
  split at hbind
  · exact nomatch hbind
  · exact (Except.ok.inj hbind).symm

/-- A wait that is not interrupted learns what is found within its time limit. -/
theorem wait_eq {found : Patience → Option Poll} {poll : Poll}
    (hfound : found s.patience = some poll) (sees : Nat → Bool) :
    s.wait sees found = ⟨poll.listener, s.registry.flags sees poll.hit⟩ := by
  rw [wait, hfound]

/-- A cycle from its wait on is one in which every worker is looked at by its number. -/
theorem cycle_eq {found : Patience → Option Poll} {poll : Poll}
    (hfound : found s.patience = some poll) (h : Host σ) (sees : Nat → Bool) :
    s.cycle h sees found = s.runOnce h (poll.seenBy sees) := by
  have hwait := wait_eq hfound sees
  have hflags :
      Registry.serveFlagged h s.registry.workers (s.wait sees found).workers s.host =
        Registry.serveEach h (isReady (poll.seenBy sees)) s.registry.workers s.host := by
    rw [hwait, Registry.flags_eq]
    exact Registry.serveFlagged_eq h _ s.registry.workers s.host
  unfold cycle runOnce Registry.serveReady
  by_cases hgo : (!s.isOpen) = true
  · rw [if_pos hgo, if_pos hgo]
  · rw [if_neg hgo, if_neg hgo]
    dsimp only
    rw [hflags, hwait]
    cases (Registry.serveEach h (isReady (poll.seenBy sees)) s.registry.workers s.host).1.filter
        fun failure => failure.2.isFatal with
    | nil => rfl
    | cons failure others => rfl

/-- The visits of a cycle. -/
def visits (h : Host σ) (poll : Poll) (s : Server σ) : List (Visit σ) :=
  Registry.visits h (isReady poll) s.registry.workers s.host

/-- The server between two cycles: it listens, and its workers are unmarked and open. -/
structure Settled (s : Server σ) : Prop where
  isOpen : s.isOpen = true
  unmarked : ∀ w ∈ s.registry.workers, w.doomed = false
  workers_open : ∀ w ∈ s.registry.workers, w.conn.isOpen = true

/-- The server pays these visits: one to every worker, in order. Those that are ready are served, no
others are, and each visit finds the host as the one before has left it. -/
structure Pays (h : Host σ) (poll : Poll) (s : Server σ) (vs : List (Visit σ)) : Prop where
  workers : vs.map Visit.worker = s.registry.workers
  served : ∀ v ∈ vs, v.served = isReady poll v.worker
  host : Visit.Leads h s.host vs (Visit.hostAfter h vs s.host)

/-- Visits are paid to workers. -/
theorem Pays.worker_mem {poll : Poll} {vs : List (Visit σ)} {v : Visit σ}
    (hvs : s.Pays h poll vs) (hv : v ∈ vs) : v.worker ∈ s.registry.workers :=
  hvs.workers ▸ List.mem_map_of_mem hv

/-- What a wait finds determines the visits. -/
theorem Pays.unique {poll : Poll} {vs us : List (Visit σ)} (hvs : s.Pays h poll vs)
    (hus : s.Pays h poll us) : vs = us :=
  hvs.host.unique hus.host (hvs.workers.trans hus.workers.symm) hvs.served hus.served

/-- A settled server pays its visits. -/
theorem Settled.pays (hs : s.Settled) (h : Host σ) (poll : Poll) :
    s.Pays h poll (s.visits h poll) := by
  have hworkers := Registry.map_worker_visits h (isReady poll) s.registry.workers s.host
  refine ⟨hworkers, fun v hv => ?_, Registry.leads_visits h _ _ _⟩
  have hlive := hs.unmarked v.worker (hworkers ▸ List.mem_map_of_mem hv)
  rw [Registry.served_of_mem_visits hv, hlive, Bool.not_false, Bool.and_true]

end Server

end RemoteCall
