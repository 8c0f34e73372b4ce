import Mathlib.Data.List.Nodup
import RemoteCall.Proofs.Serve.Framing
import RemoteCall.Proofs.Server.Containment

/-!
# Histories of a server

A server that goes on from cycle to cycle, while peers come and go, send what they like and fail in
any combination. The visits that it has paid so far are its log. Those that left are exactly the
ones whose request failed, and whoever left is never visited again. The ids of its workers are their
numbers as far as 64 bits tell them, so they grow in their order and are never given again until the
counter runs over; a build that checks its arithmetic ends there. What a cycle needs of the states
before is carried by this invariant alone, so it is kept part by part: by the pass with its sweep,
and by the acceptance behind it.
-/

namespace RemoteCall

variable {σ : Type} {h : Host σ} {poll : Poll} {vs log : List (Visit σ)} {checked : Bool}

namespace Visit

/-- Of visits in a row the workers leave in order. -/
theorem departing_append (h : Host σ) (vs us : List (Visit σ)) :
    departing h (vs ++ us) = departing h vs ++ departing h us := by
  rw [departing, List.filter_append, List.map_append, departing, departing]

/-- A visited worker that does not stay leaves. -/
theorem mem_departing {v : Visit σ} (hv : v ∈ vs) (hleaves : v.stays h = false) :
    (v.after h).close ∈ departing h vs :=
  List.mem_map_of_mem (List.mem_filter.mpr ⟨hv, by rw [hleaves]; rfl⟩)

/-- A visit leaves every worker its number. -/
theorem map_number_after (h : Host σ) (vs : List (Visit σ)) :
    (vs.map (after h)).map Worker.number = (vs.map worker).map Worker.number := by
  rw [List.map_map, List.map_map]
  exact List.map_congr_left fun v _ => number_after h v

end Visit

namespace Registry

/-- The numbers of the workers grow, and every number that was given is that of one worker, who is
still there or has left. Each id is what 64 bits keep of a number. -/
structure Numbered (r : Registry) : Prop where
  increasing : (r.workers.map Worker.number).Pairwise (· < ·)
  given : ((r.workers ++ r.departed).map Worker.number).Perm (List.range r.accepted)
  ids : ∀ w ∈ r.workers ++ r.departed, w.id = .ofNat w.number
  nextId_eq : r.nextId = .ofNat r.accepted

/-- The ids of the workers grow in their order, as long as no more were given than there are. Until
then, and no longer, every id that was given is that of one worker alone. -/
structure Named (r : Registry) : Prop where
  ascending : r.accepted ≤ UInt64.size → (r.workers.map Worker.id).Pairwise (· < ·)
  unique : ((r.workers ++ r.departed).map Worker.id).Nodup ↔ r.accepted ≤ UInt64.size

variable {r : Registry}

/-- No two workers have one number. -/
theorem Numbered.nodup (hr : r.Numbered) : ((r.workers ++ r.departed).map Worker.number).Nodup :=
  hr.given.nodup_iff.mpr List.nodup_range

/-- The number of a worker is one that was given. -/
theorem Numbered.number_lt (hr : r.Numbered) {w : Worker} (hw : w ∈ r.workers) :
    w.number < r.accepted :=
  List.mem_range.mp (hr.given.mem_iff.mp (List.mem_map_of_mem (List.mem_append_left _ hw)))

/-- A visit does not change the number of its worker. -/
theorem Numbered.of_visits (hr : r.Numbered) (hvs : vs.map Visit.worker = r.workers) :
    ({ r with workers := vs.map (Visit.after h) } : Registry).Numbered := by
  have hnumbers : (vs.map (Visit.after h)).map Worker.number = r.workers.map Worker.number := by
    rw [Visit.map_number_after, hvs]
  refine ⟨?_, ?_, fun w hw => ?_, hr.nextId_eq⟩
  · rw [hnumbers]
    exact hr.increasing
  · rw [List.map_append, hnumbers, ← List.map_append]
    exact hr.given
  · rcases List.mem_append.mp hw with hserved | hleft
    · obtain ⟨v, hv, rfl⟩ := List.mem_map.mp hserved
      have hworker : v.worker ∈ r.workers := hvs ▸ List.mem_map_of_mem hv
      rw [Visit.id_after, Visit.number_after]
      exact hr.ids _ (List.mem_append_left _ hworker)
    · exact hr.ids w (List.mem_append_right _ hleft)

/-- A sweep gives no numbers and no ids. -/
theorem Numbered.sweep (hr : r.Numbered) : r.sweep.Numbered := by
  refine ⟨hr.increasing.sublist (List.filter_sublist.map _), r.perm_sweep.trans hr.given,
    fun w hw => ?_, hr.nextId_eq⟩
  rcases List.mem_append.mp hw with hstays | hleft
  · exact hr.ids w (List.mem_append_left _ (List.mem_filter.mp hstays).1)
  · rcases List.mem_append.mp hleft with hbefore | hleaves
    · exact hr.ids w (List.mem_append_right _ hbefore)
    · obtain ⟨v, hv, rfl⟩ := List.mem_map.mp hleaves
      exact hr.ids v (List.mem_append_left _ (List.mem_filter.mp hv).1)

/-- A newcomer gets a number of its own, above all others, and the next id. -/
theorem Numbered.insert (hr : r.Numbered) (conn : Connection) : (r.insert conn).Numbered := by
  refine ⟨?_, ?_, fun w hw => ?_, ?_⟩
  · rw [Registry.insert, List.map_append, List.pairwise_append]
    refine ⟨hr.increasing, List.pairwise_singleton _ _, fun number hnumber new hnew => ?_⟩
    obtain ⟨w, hw, rfl⟩ := List.mem_map.mp hnumber
    rw [List.mem_singleton.mp hnew]
    exact hr.number_lt hw
  · refine (r.perm_insert conn).trans ((hr.given.cons _).trans ?_)
    rw [Registry.insert, List.range_succ]
    exact (List.perm_append_singleton _ _).symm
  · rcases List.mem_append.mp hw with hworker | hleft
    · rcases List.mem_append.mp hworker with hold | hnew
      · exact hr.ids w (List.mem_append_left _ hold)
      · rw [List.mem_singleton.mp hnew]
        exact hr.nextId_eq
    · exact hr.ids w (List.mem_append_right _ hleft)
  · rw [Registry.insert, UInt64.ofNat_add, ← hr.nextId_eq]
    rfl

/-- As long as no more were given than there are, an id is the number of its worker. -/
theorem Numbered.toNat_id (hr : r.Numbered) (hfew : r.accepted ≤ UInt64.size) {w : Worker}
    (hw : w ∈ r.workers ++ r.departed) : w.id.toNat = w.number := by
  have hlt : w.number < r.accepted :=
    List.mem_range.mp (hr.given.mem_iff.mp (List.mem_map_of_mem hw))
  rw [hr.ids w hw]
  exact UInt64.toNat_ofNat_of_lt' (Nat.lt_of_lt_of_le hlt hfew)

/-- Two workers share an id when more were given than there are: the first one, and the one behind
all others. -/
theorem Numbered.accepted_le (hr : r.Numbered)
    (hunique : ((r.workers ++ r.departed).map Worker.id).Nodup) : r.accepted ≤ UInt64.size := by
  refine Nat.le_of_not_lt fun hmany => ?_
  have hgiven : ∀ number ≤ UInt64.size, ∃ w ∈ r.workers ++ r.departed, w.number = number :=
    fun number hnumber =>
      List.mem_map.mp (hr.given.mem_iff.mpr (List.mem_range.mpr (by omega)))
  obtain ⟨first, hfirst, hzero⟩ := hgiven 0 (Nat.zero_le _)
  obtain ⟨last, hlast, hsize⟩ := hgiven UInt64.size (Nat.le_refl _)
  have hid : first.id = last.id := by
    rw [hr.ids first hfirst, hr.ids last hlast, hzero, hsize]
    rfl
  have hsame := List.inj_on_of_nodup_map hunique hfirst hlast hid
  rw [hsame, hsize] at hzero
  exact nomatch hzero

/-- As long as the counter has not run over, ids are as good as numbers. -/
theorem Numbered.named (hr : r.Numbered) : r.Named := by
  refine ⟨fun hfew => ?_, hr.accepted_le, fun hfew => ?_⟩
  · refine List.pairwise_map.mpr ((List.pairwise_map.mp hr.increasing).imp_of_mem ?_)
    intro v w hv hw hlt
    rw [UInt64.lt_iff_toNat_lt, hr.toNat_id hfew (List.mem_append_left _ hv),
      hr.toNat_id hfew (List.mem_append_left _ hw)]
    exact hlt
  · refine List.pairwise_map.mpr ((List.pairwise_map.mp hr.nodup).imp_of_mem ?_)
    intro v w hv hw hne hid
    exact hne ((hr.toNat_id hfew hv).symm.trans (hid ▸ hr.toNat_id hfew hw))

end Registry

namespace Server

variable {s t : Server σ}

/-- More input arrives for a worker. -/
def bring (number : Nat) (more : List Arrival) (s : Server σ) : Server σ :=
  { s with
    registry := s.registry.mapLine number fun l => { l with inbound := l.inbound.extend more } }

/-- A cycle from one state to the other comes to its end: in a build that checks its arithmetic, the
counter of the ids must not have run over. -/
def Returns (checked : Bool) (s t : Server σ) : Prop :=
  checked = true → s.registry.nextId ≤ t.registry.nextId

/-- The states of a server since it was bound, each with the visits paid so far. Between the cycles
a handler may be installed, the application may act for itself, the queue of those who wait to be
accepted may change in any way, and input may arrive. -/
inductive History (h : Host σ) (checked : Bool) : Server σ → List (Visit σ) → Prop where
  | bound {settings : ServerSettings} {host : σ} {s : Server σ}
      (hbind : Server.bind settings host = .ok s) : History h checked s []
  | watch {s : Server σ} {log : List (Visit σ)} (before : History h checked s log) :
      History h checked s.watch log
  | act {s : Server σ} {log : List (Visit σ)} (before : History h checked s log) (f : σ → σ) :
      History h checked { s with host := f s.host } log
  | queue {s : Server σ} {log : List (Visit σ)} (before : History h checked s log)
      (lines : List Line) : History h checked { s with pending := lines } log
  | bring {s : Server σ} {log : List (Visit σ)} (before : History h checked s log) (number : Nat)
      (more : List Arrival) : History h checked (s.bring number more) log
  | interrupted {s t : Server σ} {log : List (Visit σ)} {sees : Nat → Bool}
      {found : Patience → Option Poll} (before : History h checked s log)
      (hfound : found s.patience = none) (hcycle : s.cycle h sees found = (.ok (), t)) :
      History h checked t log
  | cycle {s t : Server σ} {log : List (Visit σ)} {sees : Nat → Bool}
      {found : Patience → Option Poll} {poll : Poll} (before : History h checked s log)
      (hfound : found s.patience = some poll) (hcycle : s.cycle h sees found = (.ok (), t))
      (hreturns : Returns checked s t) :
      History h checked t (log ++ s.visits h (poll.seenBy sees))

/-- What holds between any two cycles. -/
structure Orderly (h : Host σ) (s : Server σ) (log : List (Visit σ)) : Prop where
  settled : s.Settled
  numbered : s.registry.Numbered
  /-- Those that left are the ones whose request failed. -/
  departed : s.registry.departed = Visit.departing h log
  /-- They are closed. -/
  closed : ∀ w ∈ s.registry.departed, w.conn.isOpen = false
  /-- Whoever failed is never visited again. -/
  once : log.Pairwise fun v later => v.stays h = false → later.worker.number ≠ v.worker.number

/-- Acceptance keeps the order. -/
theorem Orderly.accepts {listener : Bool} (hs : s.Orderly h log) (hst : Accepts listener s t) :
    t.Orderly h log := by
  have hsettled := hst.settled hs.settled
  cases hst with
  | nothing _ => exact hs
  | refused _ _ => exact ⟨hsettled, hs.numbered, hs.departed, hs.closed, hs.once⟩
  | taken _ _ => exact ⟨hsettled, hs.numbered.insert _, hs.departed, hs.closed, hs.once⟩

/-- A pass and the sweep behind it keep the order. -/
theorem Orderly.swept (hs : s.Orderly h log) (hvs : s.Pays h poll vs) :
    (s.swept h vs).Orderly h (log ++ vs) := by
  have hregistry := Registry.sweep_visits (h := h) s.registry
    fun v hv => hs.settled.unmarked _ (hvs.worker_mem hv)
  have hdeparted : (s.swept h vs).registry.departed = Visit.departing h (log ++ vs) := by
    rw [Visit.departing_append, ← hs.departed]
    rfl
  refine ⟨hs.settled.swept hvs, ?_, hdeparted, ?_, ?_⟩
  · have hnumbered := (hs.numbered.of_visits (h := h) hvs.workers).sweep
    rw [hregistry] at hnumbered
    exact hnumbered
  · intro w hw
    rw [hdeparted] at hw
    exact Visit.isOpen_of_mem_departing hw
  · rw [List.pairwise_append]
    refine ⟨hs.once, ?_, fun v hv later hlater hleaves => ?_⟩
    · have hincreasing := hs.numbered.increasing
      rw [← hvs.workers, List.map_map] at hincreasing
      exact (List.pairwise_map.mp hincreasing).imp
        fun {v later} hlt (_ : v.stays h = false) => Nat.ne_of_gt hlt
    · -- The failed one has left, the other one is still a worker, and no number is given twice.
      have hleft : v.worker.number ∈ s.registry.departed.map Worker.number := by
        have hnumber : (v.after h).close.number = v.worker.number := Visit.number_after h v
        rw [hs.departed, ← hnumber]
        exact List.mem_map_of_mem (Visit.mem_departing hv hleaves)
      have hhere : later.worker.number ∈ s.registry.workers.map Worker.number :=
        List.mem_map_of_mem (hvs.worker_mem hlater)
      have hnodup := hs.numbered.nodup
      rw [List.map_append] at hnodup
      exact (List.nodup_append.mp hnodup).2.2 _ hhere _ hleft

/-- A cycle that goes well is a pass with its sweep, and an acceptance behind it. -/
theorem Settled.accepts_of_cycle {sees : Nat → Bool} {found : Patience → Option Poll}
    (hs : s.Settled) (hfound : found s.patience = some poll)
    (hcycle : s.cycle h sees found = (.ok (), t)) :
    Accepts poll.listener (s.swept h (s.visits h (poll.seenBy sees))) t := by
  rw [cycle_eq hfound] at hcycle
  by_cases hcalm : s.watched = true ∨ Visit.fatal h (s.visits h (poll.seenBy sees)) = []
  · obtain ⟨u, hrun, hu⟩ := hs.runOnce_of_calm hcalm
    obtain rfl : u = t := congrArg Prod.snd (hrun.symm.trans hcycle)
    exact hu
  · obtain ⟨hunwatched, hfatal⟩ := not_or.mp hcalm
    obtain ⟨e, others, hfailures⟩ := List.exists_cons_of_ne_nil hfatal
    have hrun := hs.runOnce_of_fatal (Bool.eq_false_iff.mpr hunwatched) hfailures
    exact nomatch congrArg Prod.fst (hrun.symm.trans hcycle)

/-- A cycle whose wait is interrupted changes nothing. -/
theorem Settled.cycle_interrupted {found : Patience → Option Poll} (hs : s.Settled)
    (hfound : found s.patience = none) (h : Host σ) (sees : Nat → Bool) :
    s.cycle h sees found = (.ok (), s) := by
  have hgo : ¬ (!s.isOpen) = true := by simp [hs.isOpen]
  have hserve := Registry.serveFlagged_of_none h s.registry.workers s.host
  rw [cycle, if_neg hgo]
  simp only [wait, hfound, hserve, List.filter_nil, finishCycle,
    Registry.sweep_of_unmarked hs.unmarked, Bool.false_eq_true, ↓reduceIte]

/-- Input for a worker leaves it open and unmarked. -/
theorem Settled.bring (hs : s.Settled) (number : Nat) (more : List Arrival) :
    (s.bring number more).Settled := by
  have hworker : ∀ w ∈ (s.bring number more).registry.workers, ∃ v ∈ s.registry.workers,
      w.doomed = v.doomed ∧ w.conn.isOpen = v.conn.isOpen := by
    intro w hw
    obtain ⟨v, hv, rfl⟩ := List.mem_map.mp hw
    refine ⟨v, hv, ?_⟩
    split <;> exact ⟨rfl, rfl⟩
  refine ⟨hs.isOpen, fun w hw => ?_, fun w hw => ?_⟩
  · obtain ⟨v, hv, hdoomed, -⟩ := hworker w hw
    exact hdoomed.trans (hs.unmarked v hv)
  · obtain ⟨v, hv, -, hopen⟩ := hworker w hw
    exact hopen.trans (hs.workers_open v hv)

/-- More input for a worker changes nothing about the order of the server. -/
theorem Orderly.bring (hs : s.Orderly h log) (number : Nat) (more : List Arrival) :
    (s.bring number more).Orderly h log := by
  have hnumbers : (s.bring number more).registry.workers.map Worker.number =
      s.registry.workers.map Worker.number := by
    simp only [Server.bring, Registry.mapLine, List.map_map]
    refine List.map_congr_left fun w _ => ?_
    dsimp only [Function.comp_apply]
    split <;> rfl
  refine ⟨hs.settled.bring number more, ⟨?_, ?_, fun w hw => ?_, hs.numbered.nextId_eq⟩,
    hs.departed, hs.closed, hs.once⟩
  · rw [hnumbers]
    exact hs.numbered.increasing
  · rw [List.map_append, hnumbers, ← List.map_append]
    exact hs.numbered.given
  · rcases List.mem_append.mp hw with hworker | hleft
    · obtain ⟨v, hv, rfl⟩ := List.mem_map.mp hworker
      have hid := hs.numbered.ids v (List.mem_append_left _ hv)
      split <;> exact hid
    · exact hs.numbered.ids w (List.mem_append_right _ hleft)

/-- The order holds at every point of a history. -/
theorem History.orderly (hs : History h checked s log) : s.Orderly h log := by
  induction hs with
  | bound hbind =>
    obtain rfl := eq_of_bind hbind
    exact ⟨⟨rfl, nofun, nofun⟩, ⟨.nil, .refl _, nofun, rfl⟩, rfl, nofun, .nil⟩
  | watch _ ih | act _ _ ih | queue _ _ ih =>
    exact ⟨⟨ih.settled.isOpen, ih.settled.unmarked, ih.settled.workers_open⟩, ih.numbered,
      ih.departed, ih.closed, ih.once⟩
  | bring _ number more ih => exact ih.bring number more
  | interrupted _ hfound hcycle ih =>
    rw [ih.settled.cycle_interrupted hfound] at hcycle
    cases hcycle
    exact ih
  | cycle _ hfound hcycle _ ih =>
    exact (ih.swept (ih.settled.pays h _)).accepts (ih.settled.accepts_of_cycle hfound hcycle)

/-- An acceptance that returns leaves the counter of the ids in its range. -/
theorem Accepts.accepted_lt {listener : Bool} (hst : Accepts listener s t)
    (hs : s.registry.Numbered) (hfew : s.registry.accepted < UInt64.size)
    (hreturns : s.registry.nextId ≤ t.registry.nextId) : t.registry.accepted < UInt64.size := by
  cases hst with
  | nothing _ => exact hfew
  | refused _ _ => exact hfew
  | taken _ _ =>
    -- had the counter been at its end, it would have started over
    refine Nat.lt_of_not_le fun hmany => ?_
    have hlast : s.registry.accepted + 1 = UInt64.size :=
      Nat.le_antisymm (Nat.succ_le_of_lt hfew) hmany
    have hover : s.registry.nextId + 1 = 0 := by
      rw [hs.nextId_eq, ← UInt64.ofNat_one, ← UInt64.ofNat_add, hlast]
      rfl
    have hnumber : s.registry.nextId.toNat = s.registry.accepted := by
      rw [hs.nextId_eq]
      exact UInt64.toNat_ofNat_of_lt' hfew
    have hle : s.registry.nextId ≤ s.registry.nextId + 1 := hreturns
    rw [hover, UInt64.le_iff_toNat_le, hnumber] at hle
    have : s.registry.accepted ≤ 0 := hle
    rw [UInt64.size] at hlast
    omega

/-- In a build that checks its arithmetic the counter of the ids never runs over. -/
theorem History.accepted_lt (hs : History h true s log) :
    s.registry.accepted < UInt64.size := by
  induction hs with
  | bound hbind =>
    obtain rfl := eq_of_bind hbind
    exact Nat.zero_lt_of_ne_zero (by decide)
  | watch _ ih | act _ _ ih | queue _ _ ih | bring _ _ _ ih => exact ih
  | interrupted before hfound hcycle ih =>
    rw [before.orderly.settled.cycle_interrupted hfound] at hcycle
    cases hcycle
    exact ih
  | cycle before hfound hcycle hreturns ih =>
    have horder := before.orderly
    exact (horder.settled.accepts_of_cycle hfound hcycle).accepted_lt
      (horder.swept (horder.settled.pays h _)).numbered ih (hreturns rfl)

/-- Some worker has input that no wait can see. -/
theorem anyHeld_iff (s : Server σ) :
    s.registry.anyHeld = true ↔ ∃ w ∈ s.registry.workers, w.hasHeld = true := by
  rw [Registry.anyHeld, List.any_eq_true]

/-- A wait may sleep when no worker has such input. -/
theorem patience_eq_unbounded_iff (s : Server σ) :
    s.patience = .unbounded ↔ s.registry.anyHeld = false := by
  unfold patience
  cases s.registry.anyHeld <;> simp

/-- A cycle goes by what its wait finds within this time limit, and by nothing else that a wait
might find. -/
def WaitsFor (h : Host σ) (s : Server σ) (limit : Patience) : Prop :=
  ∀ sees found, s.cycle h sees found = s.cycle h sees fun _ => found limit

/-- A cycle waits no longer than the patience of its server. -/
theorem waitsFor_patience (h : Host σ) (s : Server σ) : s.WaitsFor h s.patience :=
  fun _ _ => rfl

/-- At every point of a history the server is in order, and so are the ids of its workers: in a
build that checks its arithmetic forever, and otherwise until there are more workers than ids. The
next cycle does not let its wait sleep while some worker has input that no wait can see. If it goes
well it pays one visit to every worker, in order, and serves exactly those with such input or with
some at their descriptors. Then the failed ones leave, the others stay in order, and behind that at
most one peer is accepted. -/
theorem history_orderly {s : Server σ} {log : List (Visit σ)} (hs : History h checked s log) :
    s.Orderly h log ∧ s.registry.Named ∧
      (checked = true → s.registry.accepted < UInt64.size) ∧
      ((∃ w ∈ s.registry.workers, w.hasHeld = true) → s.WaitsFor h .zero) ∧
      ((∀ w ∈ s.registry.workers, w.hasHeld = false) → s.WaitsFor h .unbounded) ∧
      ∀ (sees : Nat → Bool) (found : Patience → Option Poll) (poll : Poll) (t : Server σ),
        found s.patience = some poll → s.cycle h sees found = (.ok (), t) → Returns checked s t →
        ∃ vs, s.Pays h (poll.seenBy sees) vs ∧ Accepts poll.listener (s.swept h vs) t ∧
          History h checked t (log ++ vs) := by
  have horder := hs.orderly
  refine ⟨horder, horder.numbered.named, ?_, fun hheld => ?_, fun hnone => ?_, ?_⟩
  · rintro rfl
    exact hs.accepted_lt
  · have hlimit : s.patience = .zero := by
      rw [patience, if_pos (s.anyHeld_iff.mpr hheld)]
    exact hlimit ▸ s.waitsFor_patience h
  · have hlimit : s.patience = .unbounded := by
      rw [patience_eq_unbounded_iff, Bool.eq_false_iff, Ne, anyHeld_iff]
      rintro ⟨w, hw, hheld⟩
      exact Bool.false_ne_true ((hnone w hw).symm.trans hheld)
    exact hlimit ▸ s.waitsFor_patience h
  · intro sees found poll t hfound hcycle hreturns
    exact ⟨_, horder.settled.pays h _, horder.settled.accepts_of_cycle hfound hcycle,
      hs.cycle hfound hcycle hreturns⟩

/-- Peers that wait: one leaves behind its greeting, one asks for something behind it, and one does
not greet. -/
def callers : List Line :=
  [.ofBytes greeting, .ofBytes (greeting ++ orderly.bytes), .ofBytes [99]]

/-- A new server for which they wait. -/
def calledServer : Server (List String) where
  host := []
  native := .host
  timeout := some (.ofSeconds 10)
  pending := callers

/-- A cycle that finds a caller and these workers. -/
def answer (hit : Nat → Bool) (s : Server (List String)) :
    Except Error Unit × Server (List String) :=
  s.cycle recorder (fun _ => true) fun _ => some ⟨true, hit⟩

/-- An answering cycle that goes well leaves the server that it is said to leave. -/
theorem answer_eq {hit : Nat → Bool} {s : Server (List String)}
    (hgood : (answer hit s).1.isOk = true) : answer hit s = (.ok (), (answer hit s).2) := by
  cases hrun : answer hit s with
  | mk result t =>
    cases result with
    | ok u => rfl
    | error e =>
      rw [hrun] at hgood
      exact nomatch hgood

/-- The server behind two cycles, in which two of them were accepted. -/
def busyServer : Server (List String) :=
  (answer (fun _ => false) (answer (fun _ => false) calledServer).2).2

/-- The busy server has a history of two cycles. -/
theorem history_busyServer : ∃ log, History recorder true busyServer log := by
  have hbound : Server.bind {} ([] : List String) = .ok { calledServer with pending := [] } := rfl
  have hfirst : answer (fun _ => false) calledServer = (.ok (), _) :=
    answer_eq (by decide +kernel)
  have hsecond : answer (fun _ => false) (answer (fun _ => false) calledServer).2 =
      (.ok (), busyServer) := answer_eq (by decide +kernel)
  exact ⟨_, .cycle (.cycle (.queue (.bound hbound) callers) rfl hfirst fun _ => by decide +kernel)
    rfl hsecond fun _ => by decide +kernel⟩

/-- The second worker has its request at hand, so that the next wait does not sleep. Both are
served, the first one has hung up and leaves, and the last caller is turned away. -/
theorem history_orderly_busyServer :
    busyServer.WaitsFor recorder .zero ∧
      ∃ t vs, answer (· = 0) busyServer = (.ok (), t) ∧
        vs.map Visit.served = [true, true] ∧ Accepts true (busyServer.swept recorder vs) t ∧
        t.host = [""] ∧ t.registry.workers.map Worker.number = [1] ∧
        t.registry.departed.map Worker.number = [0] ∧ t.registry.nextId = 2 := by
  obtain ⟨log, hlog⟩ := history_busyServer
  obtain ⟨horder, -, -, hwait, -, hcycles⟩ := history_orderly hlog
  have hcycle : answer (· = 0) busyServer = (.ok (), _) := answer_eq (by decide +kernel)
  obtain ⟨vs, hvs, haccepts, -⟩ := hcycles (fun _ => true) (fun _ => some ⟨true, (· = 0)⟩)
    ⟨true, (· = 0)⟩ _ rfl hcycle fun _ => by decide +kernel
  have hvisits := hvs.unique (horder.settled.pays _ _)
  have hheld : ∃ w ∈ busyServer.registry.workers, w.hasHeld = true := by decide +kernel
  refine ⟨hwait hheld, _, vs, hcycle, ?_, haccepts, ?_, ?_, ?_, ?_⟩
  · rw [hvisits]
    decide +kernel
  all_goals decide +kernel

end Server

end RemoteCall
