import RemoteCall.Namespace.Stock
import RemoteCall.Proofs.Server.Pass

/-!
# Failures of a pass

Any workers may fail in one pass, in any way. A server that goes on closes and drops exactly these,
tells its handler of the fatal failures alone, and leaves every other worker with its request served
in full or untouched. A server without a handler goes on where no failure is fatal; otherwise it
stops with the first fatal failure and closes everything.
-/

namespace RemoteCall

variable {σ : Type} {h : Host σ} {poll : Poll} {vs : List (Visit σ)}

namespace Visit

/-- A pass hands back the fatal failures of its visits. -/
theorem map_snd_filter_failures (h : Host σ) (vs : List (Visit σ)) :
    ((vs.filterMap fun v => (v.failure? h).map fun e => (v.worker.id, e)).filter
      fun failure => failure.2.isFatal).map Prod.snd = fatal h vs := by
  induction vs with
  | nil => rfl
  | cons v vs ih =>
    cases hfailure : v.failure? h with
    | none => simpa [fatal, hfailure] using ih
    | some e => cases hfatal : e.isFatal <;> simpa [fatal, hfailure, hfatal] using ih

end Visit

namespace Server

variable {s t : Server σ}

/-- The server behind its visits, the failed workers gone. -/
def swept (h : Host σ) (vs : List (Visit σ)) (s : Server σ) : Server σ :=
  { s with
    host := Visit.hostAfter h vs s.host
    registry :=
      { s.registry with
        workers := Visit.remaining h vs
        departed := s.registry.departed ++ Visit.departing h vs }
    reported := s.reported ++ Visit.fatal h vs }

/-- The server behind its visits, shut down. -/
def shutDown (h : Host σ) (vs : List (Visit σ)) (s : Server σ) : Server σ :=
  { s with
    host := Visit.hostAfter h vs s.host
    isOpen := false
    pending := []
    registry :=
      { s.registry with
        workers := []
        departed := s.registry.departed ++ vs.map fun v => (v.after h).close } }

/-- What becomes of the first peer that waits: nothing where no listener was found ready or no peer
waits, and otherwise its handshake is refused, which costs it its place in the queue and changes
nothing else, or it becomes a worker. -/
inductive Accepts : Bool → Server σ → Server σ → Prop where
  | nothing {s : Server σ} {listener : Bool} (h : listener = false ∨ s.pending = []) :
      Accepts listener s s
  | refused {s : Server σ} {line : Line} {rest : List Line} {e : Error}
      (hpending : s.pending = line :: rest) (hgreet : (s.greet line).1 = .error e) :
      Accepts true s { s with pending := rest }
  | taken {s : Server σ} {line : Line} {rest : List Line} {conn : Connection}
      (hpending : s.pending = line :: rest) (hgreet : s.greet line = (.ok (), conn)) :
      Accepts true s { s with pending := rest, registry := s.registry.insert conn }

/-- A server with a listener that is ready accepts the first peer that waits, or refuses it. -/
theorem accepts_accept (s : Server σ) : Accepts true s s.accept := by
  unfold accept
  cases hpending : s.pending with
  | nil => exact .nothing (.inr hpending)
  | cons line rest =>
    dsimp only
    cases hgreet : s.greet line with
    | mk result conn =>
      cases result with
      | ok u => exact .taken hpending hgreet
      | error e => exact .refused hpending (congrArg Prod.fst hgreet)

/-- At most one worker is new. -/
theorem Accepts.workers {listener : Bool} (hst : Accepts listener s t) :
    ∃ newcomers : List Worker, t.registry.workers = s.registry.workers ++ newcomers ∧
      newcomers.length ≤ 1 := by
  cases hst with
  | nothing _ | refused _ _ => exact ⟨[], (List.append_nil _).symm, Nat.zero_le _⟩
  | taken _ _ => exact ⟨_, rfl, Nat.le_refl 1⟩

/-- A newcomer is open and unmarked like the others. -/
theorem Accepts.settled {listener : Bool} (hst : Accepts listener s t) (hs : s.Settled) :
    t.Settled := by
  cases hst with
  | nothing _ => exact hs
  | refused _ _ => exact ⟨hs.isOpen, hs.unmarked, hs.workers_open⟩
  | taken _ hgreet =>
    refine ⟨hs.isOpen, fun w hw => ?_, fun w hw => ?_⟩
    · rcases List.mem_append.mp hw with hw | hw
      · exact hs.unmarked w hw
      · rw [List.mem_singleton.mp hw]
    · rcases List.mem_append.mp hw with hw | hw
      · exact hs.workers_open w hw
      · rw [List.mem_singleton.mp hw]
        exact Serving.acceptHandshake_ok hgreet

/-- Whoever stays is open and unmarked. -/
theorem Settled.swept (hs : s.Settled) (hvs : s.Pays h poll vs) : (s.swept h vs).Settled := by
  refine ⟨hs.isOpen, fun w hw => ?_, fun w hw => ?_⟩
  · obtain ⟨v, hv, rfl⟩ := List.mem_map.mp hw
    obtain ⟨hmem, hstays⟩ := List.mem_filter.mp hv
    rw [Visit.doomed_after (hs.unmarked _ (hvs.worker_mem hmem)), hstays]
    rfl
  · obtain ⟨v, hv, rfl⟩ := List.mem_map.mp hw
    obtain ⟨hmem, hstays⟩ := List.mem_filter.mp hv
    exact Visit.isOpen_after (hs.workers_open _ (hvs.worker_mem hmem)) hstays

/-- A pass over the workers pays its visits, tells of their fatal failures and leaves the host
behind them. -/
theorem serveReady_visits (h : Host σ) (poll : Poll) (s : Server σ) :
    ∃ failures, failures.map Prod.snd = Visit.fatal h (s.visits h poll) ∧
      s.registry.serveReady h (isReady poll) s.host =
        (failures, { s.registry with workers := (s.visits h poll).map (Visit.after h) },
          Visit.hostAfter h (s.visits h poll) s.host) := by
  refine ⟨_, Visit.map_snd_filter_failures h (s.visits h poll), ?_⟩
  rw [Registry.serveReady, Registry.serveEach_eq]
  rfl

/-- Where nobody needs to stop it, the server goes on. -/
theorem Settled.runOnce_of_calm (hs : s.Settled)
    (hcalm : s.watched = true ∨ Visit.fatal h (s.visits h poll) = []) :
    ∃ t, s.runOnce h poll = (.ok (), t) ∧
      Accepts poll.listener (s.swept h (s.visits h poll)) t := by
  have hgo : ¬ (!s.isOpen) = true := by simp [hs.isOpen]
  have hlive : ∀ v ∈ s.visits h poll, v.worker.doomed = false :=
    fun v hv => hs.unmarked _ ((hs.pays h poll).worker_mem hv)
  obtain ⟨failures, hfatal, hserve⟩ := serveReady_visits h poll s
  have hrun : s.runOnce h poll = (.ok (),
      ({ s with
          registry := { s.registry with workers := (s.visits h poll).map (Visit.after h) }
          host := Visit.hostAfter h (s.visits h poll) s.host
          reported := s.reported ++ Visit.fatal h (s.visits h poll) } : Server σ).finishCycle
        poll) := by
    rw [Server.runOnce, if_neg hgo, hserve]
    cases failures with
    | nil =>
      rw [← hfatal]
      simp only [List.map_nil, List.append_nil]
    | cons failure failures =>
      rcases hcalm with hwatched | hmild
      · dsimp only
        rw [if_pos hwatched, hfatal]
      · exact nomatch hfatal.trans hmild
  refine ⟨_, hrun, ?_⟩
  unfold finishCycle
  dsimp only
  rw [Registry.sweep_visits s.registry hlive]
  cases hlistener : poll.listener with
  | true => exact accepts_accept _
  | false => exact .nothing (.inl rfl)

/-- Where no handler is installed the first fatal failure shuts the server down. -/
theorem Settled.runOnce_of_fatal (hs : s.Settled) {e : Error} {others : List Error}
    (hunwatched : s.watched = false) (hfatal : Visit.fatal h (s.visits h poll) = e :: others) :
    s.runOnce h poll = (.error e, s.shutDown h (s.visits h poll)) := by
  have hgo : ¬ (!s.isOpen) = true := by simp [hs.isOpen]
  have hstop : ¬ s.watched = true := by simp [hunwatched]
  obtain ⟨failures, hfailures, hserve⟩ := serveReady_visits h poll s
  obtain ⟨failure, later, rfl, rfl, -⟩ := List.map_eq_cons_iff.mp (hfailures.trans hfatal)
  rw [Server.runOnce, if_neg hgo, hserve]
  dsimp only
  rw [if_neg hstop]
  simp only [close, Registry.closeAll, shutDown, List.map_map, Function.comp_def]

/-- The failures of these visits are contained. -/
structure Contains (h : Host σ) (vs : List (Visit σ)) (s t : Server σ) : Prop where
  isOpen : t.isOpen = true
  /-- The handler has received every fatal failure once, in order, and no other. -/
  reported : t.reported = s.reported ++ Visit.fatal h vs
  /-- The failed workers are closed and gone, and no others are. -/
  departed : t.registry.departed = s.registry.departed ++ Visit.departing h vs
  closed : ∀ w ∈ Visit.departing h vs, w.conn.isOpen = false
  /-- The others are there in order, before at most one newcomer. -/
  workers : ∃ newcomers : List Worker, t.registry.workers = Visit.remaining h vs ++ newcomers ∧
    newcomers.length ≤ 1
  workers_open : ∀ w ∈ t.registry.workers, w.conn.isOpen = true
  answered : ∀ v ∈ vs, v.stays h = true → v.Answered h
  host : t.host = Visit.hostAfter h vs s.host
  /-- The listener is there as it was, and at most the first of those who wait is dealt with. -/
  listener : t.native = s.native ∧ t.timeout = s.timeout ∧ t.watched = s.watched ∧
    (t.pending = s.pending ∨ t.pending = s.pending.tail)

/-- The failures of these visits have ended everything. -/
structure EndsWith (h : Host σ) (vs : List (Visit σ)) (s t : Server σ) : Prop where
  isOpen : t.isOpen = false
  pending : t.pending = []
  /-- Every worker is closed and gone. -/
  workers : t.registry.workers = []
  departed : t.registry.departed = s.registry.departed ++ vs.map fun v => (v.after h).close
  closed : ∀ v ∈ vs, (v.after h).close.conn.isOpen = false
  /-- The requests that succeeded are answered in full, and their replies are pushed. -/
  answered : ∀ v ∈ vs, v.stays h = true → v.Answered h
  reported : t.reported = s.reported
  host : t.host = Visit.hostAfter h vs s.host

/-- What becomes of a waiting peer does not undo that the failures are contained. -/
theorem Accepts.contains {listener : Bool} (hs : s.Settled) (hvs : s.Pays h poll vs)
    (hst : Accepts listener (s.swept h vs) t) : s.Contains h vs t := by
  have hsettled := hst.settled (hs.swept hvs)
  have hworkers := hst.workers
  have hclosed : ∀ w ∈ Visit.departing h vs, w.conn.isOpen = false :=
    fun w => Visit.isOpen_of_mem_departing
  have hanswered : ∀ v ∈ vs, v.stays h = true → v.Answered h :=
    fun v _ => Visit.answered_of_stays
  cases hst with
  | nothing _ =>
    exact ⟨hs.isOpen, rfl, rfl, hclosed, hworkers, hsettled.workers_open, hanswered, rfl, rfl, rfl,
      rfl, .inl rfl⟩
  | refused hpending _ | taken hpending _ =>
    exact ⟨hs.isOpen, rfl, rfl, hclosed, hworkers, hsettled.workers_open, hanswered, rfl, rfl, rfl,
      rfl, .inr (congrArg List.tail hpending).symm⟩

/-- A server that is shut down has come to its end. -/
theorem endsWith_shutDown (h : Host σ) (vs : List (Visit σ)) (s : Server σ) :
    s.EndsWith h vs (s.shutDown h vs) :=
  ⟨rfl, rfl, rfl, rfl, fun _ _ => rfl, fun _ _ => Visit.answered_of_stays, rfl, rfl⟩

/-- In any state between two cycles, whatever a wait finds and whichever workers fail: where a
handler is installed or no failure is fatal, the server goes on and the failures are contained.
Otherwise it stops with the first fatal failure, and everything is closed. -/
theorem runOnce_contains (h : Host σ) (poll : Poll) {s : Server σ} (hs : s.Settled) :
    ∃ vs, s.Pays h poll vs ∧
      (s.watched = true ∨ Visit.fatal h vs = [] →
        ∃ t, s.runOnce h poll = (.ok (), t) ∧ s.Contains h vs t) ∧
      ∀ e others, s.watched = false → Visit.fatal h vs = e :: others →
        ∃ t, s.runOnce h poll = (.error e, t) ∧ s.EndsWith h vs t := by
  refine ⟨s.visits h poll, hs.pays h poll, fun hcalm => ?_, fun e others hunwatched hfatal => ?_⟩
  · obtain ⟨t, hrun, hst⟩ := hs.runOnce_of_calm hcalm
    exact ⟨t, hrun, hst.contains hs (hs.pays h poll)⟩
  · exact ⟨_, hs.runOnce_of_fatal hunwatched hfatal, endsWith_shutDown h _ s⟩

/-- Four peers: one has hung up, one does so inside a request, one reads a value that is not there,
and one sends no command at all. -/
def quartet : Server (Namespace Stock) where
  host := .empty
  native := .host
  timeout := none
  registry :=
    { workers :=
        [⟨0, 0, .ofLine (.ofBytes []) .host, false⟩,
          ⟨1, 1, .ofLine (.ofBytes [Command.get.toByte]) .host, false⟩,
          ⟨2, 2, .ofLine (.ofBytes [Command.get.toByte, 1, 0, 0, 0, 97]) .host, false⟩,
          ⟨3, 3, .ofLine (.ofBytes [99]) .host, false⟩]
      accepted := 4
      nextId := 4 }

/-- The four workers are open and none of them is marked. -/
theorem settled_quartet : quartet.Settled := ⟨rfl, by decide, by decide⟩

/-- The wait finds all of them ready. -/
def everyone : Poll := ⟨false, fun _ => true⟩

/-- A handler is told of the second failure of three, and the reader is left; without a handler this
failure ends everything. -/
theorem runOnce_contains_quartet :
    (∃ t, quartet.watch.runOnce Namespace.host everyone = (.ok (), t) ∧ t.reported = [.eof] ∧
      t.registry.workers.map Worker.number = [2] ∧
      t.registry.departed.map Worker.number = [0, 1, 3]) ∧
    ∃ t, quartet.runOnce Namespace.host everyone = (.error .eof, t) ∧ t.registry.workers = [] ∧
      t.registry.departed.map Worker.number = [0, 1, 2, 3] := by
  have hwatched : quartet.watch.Settled := ⟨rfl, by decide, by decide⟩
  constructor
  · obtain ⟨vs, hvs, hcalm, -⟩ := runOnce_contains Namespace.host everyone hwatched
    obtain ⟨t, hrun, ht⟩ := hcalm (.inl rfl)
    obtain rfl := hvs.unique (hwatched.pays _ _)
    have ht' : t = (quartet.watch.runOnce Namespace.host everyone).2 := by rw [hrun]
    refine ⟨t, hrun, ht.reported.trans (by decide +kernel), ?_, ?_⟩
    · rw [ht']
      decide +kernel
    · rw [ht.departed]
      decide +kernel
  · obtain ⟨vs, hvs, -, hfatal⟩ := runOnce_contains Namespace.host everyone settled_quartet
    obtain rfl := hvs.unique (settled_quartet.pays _ _)
    obtain ⟨t, hrun, ht⟩ := hfatal .eof [] rfl (by decide +kernel)
    refine ⟨t, hrun, ht.workers, ?_⟩
    rw [ht.departed]
    decide +kernel

end Server

end RemoteCall
