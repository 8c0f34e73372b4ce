import RemoteCall.Namespace.Stock
import RemoteCall.Proofs.Serve.Completion
import RemoteCall.Proofs.Server.Dialogue
import RemoteCall.Proofs.Server.Pass

/-!
# Many peers at one server

A server with any number of workers over one host. A cycle gives each worker that is ready one turn,
in the order of acceptance, so a run of cycles is one order of turns, and what the server does is
read off the dialogues of its peers in that order. The invariant relates every worker to its
dialogue: what is unread on its line is what the peer has still to ask, and what was written there
is what the peer was sent. Workers come and go between cycles, and the dialogues go on beside that.
-/

namespace RemoteCall

variable {σ : Type} {own : Format}

/-- The worker is in dialogue with its peer. -/
structure Worker.Attends (d : Dialogue own) (w : Worker) : Prop where
  serves : w.conn.Serves own d.format
  unread : w.conn.line.inbound.Brings d.left.bytes []
  written : w.conn.line.written = d.sent
  ended : w.doomed = true → d.IsOver

/-- The worker has left the dialogue. -/
structure Worker.HasLeft (d : Dialogue own) (w : Worker) : Prop where
  unread : w.conn.line.inbound.Brings d.left.bytes []
  written : w.conn.line.written = d.sent
  ended : d.IsOver

/-- A peer waits on the line with its greeting and what it has to ask. -/
structure Line.Awaits (d : Dialogue own) (l : Line) : Prop where
  isOpen : l.isOpen = true
  free : l.intake = .free
  greeting : ∃ header peer, Header.decode header = .ok peer ∧ d.format = own.reconcile peer ∧
    l.inbound.Brings (Command.connect.toByte :: (header ++ d.left.bytes)) []
  sent : d.sent = l.written ++ (Header.ofFormat d.format).encode

namespace Worker

open Serving

variable {d : Dialogue own} {w : Worker}

/-- A marked worker has left its dialogue when it is closed. -/
theorem Attends.hasLeft (hw : w.Attends d) (hdoomed : w.doomed = true) : w.close.HasLeft d :=
  ⟨hw.unread, hw.written, hw.ended hdoomed⟩

/-- Serving a worker is a turn of its peer. The worker is marked at the end of the dialogue and
where a reply is cut short, and never by a fatal error. -/
theorem Attends.serve {t : Talks own σ} (h : Host σ) (hw : w.Attends (t.dialogues w.number))
    (hlive : w.doomed = false) :
    ∃ failure w', w.serve h t.host = (failure, w', (t.turn h w.number).host) ∧
      w'.number = w.number ∧ w'.Attends ((t.turn h w.number).dialogues w.number) ∧
      ∀ e, failure = some e → e.isFatal = false := by
  obtain ⟨hserves, hunread, hwritten, hended⟩ := hw
  cases hd : t.dialogues w.number with
  | mk f left sent broken =>
    rw [hd] at hserves hunread hwritten hended
    cases left with
    | nil =>
      have hend := serveOne_of_end (s := ⟨w.conn, t.host⟩) h hserves.openIn hunread
      rw [Talks.turn_of_nil hd, hd]
      refine ⟨_, _, serve_of_error hend, rfl, ?_, ?_⟩
      · exact ⟨hserves.withInput _, Inbound.brings_empty, hwritten, fun _ => .inl rfl⟩
      · rintro e ⟨⟩
        rfl
    | cons r rest =>
      rw [Talks.dialogues_turn_self hd, Talks.host_turn hd]
      have hin : w.conn.line.inbound.Brings (r.bytes ++ rest.bytes) [] := by
        rw [← Requests.bytes_cons]
        exact hunread
      obtain ⟨later, hserve, hlater, hnext, hsent⟩ :=
        serveOne_request (s := ⟨w.conn, t.host⟩) h r hserves hin
      have hsent' : later.line.written = sent ++ (r.reply own h t.host).bytes :=
        hsent.trans (congrArg (· ++ _) hwritten)
      cases hfailure : (r.reply own h t.host).failure with
      | none =>
        rw [Emission.outcome_eq_ok.mpr hfailure] at hserve
        refine ⟨_, _, serve_of_ok hserve, rfl, ⟨hlater, hnext, hsent', ?_⟩, nofun⟩
        intro hdoomed
        exact absurd (hlive.symm.trans hdoomed) nofun
      | some e =>
        rw [Emission.outcome_eq_error.mpr hfailure] at hserve
        refine ⟨_, _, serve_of_error hserve, rfl, ⟨hlater, hnext, hsent', fun _ => .inr rfl⟩, ?_⟩
        rintro e ⟨⟩
        have hmild := (r.mild_reply own h t.host).nonFatal hfailure
        simp [Error.isFatal, hmild]

end Worker

namespace Registry

/-- The peers that have a turn in a pass, in order. -/
def turns (ready : Worker → Bool) (workers : List Worker) : List Nat :=
  (workers.filter fun w => ready w && !w.doomed).map Worker.number

/-- The workers are in dialogue with their peers, each under a number of its own, and so were those
that have left, except some that had left before. No number that was given is missing. -/
structure Attends (before : List Worker) (dialogues : Nat → Dialogue own) (r : Registry) :
    Prop where
  nodup : ((r.workers ++ r.departed).map Worker.number).Nodup
  mem_numbers : ∀ number, number ∈ (r.workers ++ r.departed).map Worker.number ↔ number < r.accepted
  workers : ∀ w ∈ r.workers, w.Attends (dialogues w.number)
  departed : ∀ w ∈ r.departed, w ∈ before ∨ w.HasLeft (dialogues w.number)

variable {h : Host σ} {ready : Worker → Bool} {r : Registry} {before : List Worker}
  {dialogues : Nat → Dialogue own}

/-- A worker that is ready has its turn before those behind it. -/
theorem turns_of_ready {w : Worker} (hready : (ready w && !w.doomed) = true)
    (rest : List Worker) : turns ready (w :: rest) = w.number :: turns ready rest := by
  simp [turns, hready]

/-- A worker that is not ready, or marked, has no turn. -/
theorem turns_of_idle {w : Worker} (hready : ¬ (ready w && !w.doomed) = true)
    (rest : List Worker) : turns ready (w :: rest) = turns ready rest := by
  rw [turns, List.filter_cons, if_neg hready]
  rfl

/-- Nobody has a turn without a worker. -/
theorem not_mem_turns {number : Nat} {workers : List Worker}
    (hnumber : number ∉ workers.map Worker.number) :
    number ∉ turns ready workers := by
  intro hmem
  obtain ⟨w, hw, rfl⟩ := List.mem_map.mp hmem
  exact hnumber (List.mem_map_of_mem (List.mem_filter.mp hw).1)

/-- A worker that is ready is served before those behind it, and they find the host as it has left
it. -/
theorem serveEach_of_ready {w w' : Worker} {rest served : List Worker} {s s' s'' : σ}
    {failure : Option Error} {failures : List (UInt64 × Error)}
    (hready : (ready w && !w.doomed) = true) (hserve : w.serve h s = (failure, w', s'))
    (hrest : serveEach h ready rest s' = (failures, served, s'')) :
    serveEach h ready (w :: rest) s =
      ((failure.map fun e => (w.id, e)).toList ++ failures, w' :: served, s'') := by
  rw [serveEach, if_pos hready, hserve]
  dsimp only
  rw [hrest]

/-- A worker that is not ready, or marked, is passed over. -/
theorem serveEach_of_idle {w : Worker} {rest served : List Worker} {s s' : σ}
    {failures : List (UInt64 × Error)} (hready : ¬ (ready w && !w.doomed) = true)
    (hrest : serveEach h ready rest s = (failures, served, s')) :
    serveEach h ready (w :: rest) s = (failures, w :: served, s') := by
  rw [serveEach, if_neg hready, hrest]

/-- Serving the ready ones of some workers is a turn of the peer of each, in their order. -/
theorem serveEach_attends (h : Host σ) (ready : Worker → Bool) (workers : List Worker)
    (t : Talks own σ) (hnodup : (workers.map Worker.number).Nodup)
    (hworkers : ∀ w ∈ workers, w.Attends (t.dialogues w.number)) :
    ∃ failures served,
      serveEach h ready workers t.host =
        (failures, served, (t.play h (turns ready workers)).host) ∧
      served.map Worker.number = workers.map Worker.number ∧
      (∀ w ∈ served, w.Attends ((t.play h (turns ready workers)).dialogues w.number)) ∧
      ∀ failure ∈ failures, failure.2.isFatal = false := by
  induction workers generalizing t with
  | nil => exact ⟨[], [], rfl, rfl, nofun, nofun⟩
  | cons w rest ih =>
    obtain ⟨hfresh, hdistinct⟩ := List.nodup_cons.mp hnodup
    obtain ⟨hfirst, hrest⟩ := List.forall_mem_cons.mp hworkers
    have hpassed : w.number ∉ turns ready rest := not_mem_turns hfresh
    by_cases hready : (ready w && !w.doomed) = true
    · have hlive : w.doomed = false := by
        simp only [Bool.and_eq_true, Bool.not_eq_true'] at hready
        exact hready.2
      obtain ⟨failure, w', hserve, hnumber, hw', hmild⟩ := hfirst.serve h hlive
      have hothers : ∀ v ∈ rest, v.Attends ((t.turn h w.number).dialogues v.number) := by
        intro v hv
        have hne : v.number ≠ w.number := fun heq => hfresh (heq ▸ List.mem_map_of_mem hv)
        rw [Talks.dialogues_turn_of_ne hne]
        exact hrest v hv
      obtain ⟨failures, served, hrun, hnumbers, hserved, hfailures⟩ :=
        ih (t.turn h w.number) hdistinct hothers
      rw [turns_of_ready hready]
      refine ⟨_, _, serveEach_of_ready hready hserve hrun, ?_, ?_, ?_⟩
      · rw [List.map_cons, List.map_cons, hnumber, hnumbers]
      · refine List.forall_mem_cons.mpr ⟨?_, hserved⟩
        have hkept := Talks.dialogues_play_of_not_mem (h := h) (t := t.turn h w.number) hpassed
        rw [← hkept] at hw'
        rw [hnumber]
        exact hw'
      · intro f hf
        rcases List.mem_append.mp hf with hf | hf
        · obtain ⟨e, he, rfl⟩ := Option.map_eq_some_iff.mp (Option.mem_toList.mp hf)
          exact hmild e he
        · exact hfailures f hf
    · obtain ⟨failures, served, hrun, hnumbers, hserved, hfailures⟩ := ih t hdistinct hrest
      rw [turns_of_idle hready]
      refine ⟨_, _, serveEach_of_idle hready hrun, ?_, ?_, hfailures⟩
      · rw [List.map_cons, List.map_cons, hnumbers]
      · refine List.forall_mem_cons.mpr ⟨?_, hserved⟩
        rw [Talks.dialogues_play_of_not_mem hpassed]
        exact hfirst

/-- A pass is a turn of the peer of every worker that is ready, and none of them fails fatally. -/
theorem Attends.serveReady {t : Talks own σ} (h : Host σ) (ready : Worker → Bool)
    (hr : r.Attends before t.dialogues) :
    ∃ r', r.serveReady h ready t.host = ([], r', (t.play h (turns ready r.workers)).host) ∧
      r'.Attends before (t.play h (turns ready r.workers)).dialogues ∧
      r'.accepted = r.accepted := by
  obtain ⟨hnodup, hnumbers, hworkers, hdeparted⟩ := hr
  rw [List.map_append] at hnodup hnumbers
  obtain ⟨hdistinct, -, hapart⟩ := List.nodup_append.mp hnodup
  obtain ⟨failures, served, hrun, hsame, hserved, hfailures⟩ :=
    serveEach_attends h ready r.workers t hdistinct hworkers
  refine ⟨{ r with workers := served }, ?_, ⟨?_, ?_, hserved, ?_⟩, rfl⟩
  · have hmild : failures.filter (fun failure => failure.2.isFatal) = [] :=
      List.filter_eq_nil_iff.mpr fun failure hmem => by simp [hfailures failure hmem]
    rw [Registry.serveReady, hrun]
    dsimp only
    rw [hmild]
  · rw [List.map_append, hsame]
    exact hnodup
  · rw [List.map_append, hsame]
    exact hnumbers
  · intro w hw
    have hpassed : w.number ∉ turns ready r.workers :=
      not_mem_turns fun hmem => hapart _ hmem _ (List.mem_map_of_mem hw) rfl
    rw [Talks.dialogues_play_of_not_mem hpassed]
    exact hdeparted w hw

/-- Marked workers leave their dialogues, which are over. -/
theorem Attends.sweep (hr : r.Attends before dialogues) : r.sweep.Attends before dialogues := by
  obtain ⟨hnodup, hnumbers, hworkers, hdeparted⟩ := hr
  refine ⟨r.perm_sweep.nodup_iff.mpr hnodup,
    fun number => r.perm_sweep.mem_iff.trans (hnumbers number), ?_, ?_⟩
  · intro w hw
    exact hworkers w (List.mem_filter.mp hw).1
  · intro w hw
    rcases List.mem_append.mp hw with hw | hw
    · exact hdeparted w hw
    · obtain ⟨v, hv, rfl⟩ := List.mem_map.mp hw
      obtain ⟨hmem, hdoomed⟩ := List.mem_filter.mp hv
      exact .inr ((hworkers v hmem).hasLeft hdoomed)

/-- A connection behind its handshake becomes a worker with a number of its own. -/
theorem Attends.insert {conn : Connection} (hr : r.Attends before dialogues)
    (hconn : Worker.Attends (dialogues r.accepted) ⟨r.accepted, r.nextId, conn, false⟩) :
    (r.insert conn).Attends before dialogues := by
  obtain ⟨hnodup, hnumbers, hworkers, hdeparted⟩ := hr
  have hperm := r.perm_insert conn
  refine ⟨?_, fun number => ?_, ?_, hdeparted⟩
  · rw [hperm.nodup_iff, List.nodup_cons]
    exact ⟨fun hmem => Nat.lt_irrefl _ ((hnumbers _).mp hmem), hnodup⟩
  · rw [hperm.mem_iff, List.mem_cons, hnumbers]
    simp only [Registry.insert]
    omega
  · intro w hw
    rcases List.mem_append.mp hw with hw | hw
    · exact hworkers w hw
    · rw [List.mem_singleton.mp hw]
      exact hconn

end Registry

namespace Server

/-- The server is in dialogue with its peers, those included that wait to be accepted. They get
their numbers in the order of their arrival. -/
structure Attends (before : List Worker) (dialogues : Nat → Dialogue own) (s : Server σ) :
    Prop where
  isOpen : s.isOpen = true
  native_eq : s.native = own
  registry : s.registry.Attends before dialogues
  pending : ∀ (k : Nat) (line : Line), s.pending[k]? = some line →
    line.Awaits (dialogues (s.registry.accepted + k))

/-- Cycles with these waits, as far as they go well. -/
def cycles (h : Host σ) : List Poll → Server σ → Except Error Unit × Server σ
  | [], s => (.ok (), s)
  | poll :: rest, s =>
    match s.runOnce h poll with
    | (.ok (), s) => cycles h rest s
    | (.error e, s) => (.error e, s)

/-- The peers that have a turn in a cycle, in order. -/
def turns (poll : Poll) (s : Server σ) : List Nat :=
  Registry.turns (isReady poll) s.registry.workers

/-- The peers that have a turn in some cycles, in order. -/
def schedule (h : Host σ) : List Poll → Server σ → List Nat
  | [], _ => []
  | poll :: rest, s => s.turns poll ++ schedule h rest (s.runOnce h poll).2

variable {h : Host σ} {s : Server σ} {before : List Worker} {dialogues : Nat → Dialogue own}

/-- The greeting of a peer that waits is accepted, whatever number its worker gets. -/
theorem greet_awaits {d : Dialogue own} {line : Line} (hnative : s.native = own)
    (hline : line.Awaits d) :
    ∃ conn, s.greet line = (.ok (), conn) ∧
      ∀ number id, Worker.Attends d ⟨number, id, conn, false⟩ := by
  obtain ⟨hopen, hfree, ⟨header, peer, hheader, hformat, hin⟩, hsent⟩ := hline
  have hserves : (Connection.ofLine (line.setTimeout s.timeout) s.native).Serves own own :=
    ⟨⟨hopen, hnative⟩, hnative, hfree⟩
  obtain ⟨later, hgreet, hlater, hnext, hwritten⟩ :=
    Session.acceptHandshake_serves hserves hheader hin
  rw [← hformat] at hlater hwritten
  exact ⟨later, hgreet, fun _ _ => ⟨hlater, hnext, hwritten.trans hsent.symm, nofun⟩⟩

/-- A peer that waits is accepted, and its dialogue begins. -/
theorem Attends.accept (hs : s.Attends before dialogues) : s.accept.Attends before dialogues := by
  obtain ⟨hopen, hnative, hregistry, hpending⟩ := hs
  unfold Server.accept
  cases hlines : s.pending with
  | nil => exact ⟨hopen, hnative, hregistry, hpending⟩
  | cons line rest =>
    rw [hlines] at hpending
    obtain ⟨conn, hgreet, hconn⟩ := greet_awaits hnative (hpending 0 line rfl)
    simp only [hgreet, enrol]
    refine ⟨hopen, hnative, hregistry.insert (hconn _ _), fun k line hk => ?_⟩
    have hnumber : s.registry.accepted + 1 + k = s.registry.accepted + (k + 1) := by omega
    have hline := hpending (k + 1) line hk
    rw [← hnumber] at hline
    exact hline

/-- The end of a cycle changes no dialogue. -/
theorem Attends.finishCycle (hs : s.Attends before dialogues) (poll : Poll) :
    (s.finishCycle poll).Attends before dialogues := by
  have hswept : ({ s with registry := s.registry.sweep } : Server σ).Attends before dialogues :=
    ⟨hs.isOpen, hs.native_eq, hs.registry.sweep, hs.pending⟩
  unfold Server.finishCycle
  dsimp only
  split
  · exact hswept.accept
  · exact hswept

/-- Accepting a peer does not ask the host. -/
theorem host_accept (s : Server σ) : s.accept.host = s.host := by
  unfold Server.accept
  split
  · rfl
  · rename_i line rest hlines
    unfold enrol
    split <;> rfl

/-- Ending a cycle does not ask the host. -/
theorem host_finishCycle (s : Server σ) (poll : Poll) : (s.finishCycle poll).host = s.host := by
  unfold Server.finishCycle
  dsimp only
  split
  · rw [host_accept]
  · rfl

/-- Only workers have turns, and not the peers that wait. -/
theorem Attends.not_mem_turns (hs : s.Attends before dialogues) (poll : Poll) (k : Nat) :
    s.registry.accepted + k ∉ s.turns poll := by
  refine Registry.not_mem_turns fun hmem => ?_
  have hgiven : s.registry.accepted + k ∈
      (s.registry.workers ++ s.registry.departed).map Worker.number := by
    rw [List.map_append]
    exact List.mem_append_left _ hmem
  have hlt := (hs.registry.mem_numbers _).mp hgiven
  omega

/-- A pass without a fatal failure is followed by the end of the cycle. -/
theorem runOnce_of_serveReady {poll : Poll} {r : Registry} {host : σ} (hopen : s.isOpen = true)
    (hserve : s.registry.serveReady h (isReady poll) s.host = ([], r, host)) :
    s.runOnce h poll =
      (.ok (), { s with registry := r, host := host : Server σ }.finishCycle poll) := by
  have hgo : ¬ (!s.isOpen) = true := by simp [hopen]
  rw [Server.runOnce, if_neg hgo, hserve]

/-- A cycle is a turn of the peer of every worker that is ready. -/
theorem Attends.runOnce {t : Talks own σ} (h : Host σ) (poll : Poll)
    (hs : s.Attends before t.dialogues) (hhost : s.host = t.host) :
    ∃ s', s.runOnce h poll = (.ok (), s') ∧ s'.host = (t.play h (s.turns poll)).host ∧
      s'.Attends before (t.play h (s.turns poll)).dialogues := by
  obtain ⟨r, hserve, hr, hnext⟩ := hs.registry.serveReady h (isReady poll)
  rw [← hhost] at hserve
  have hserved : ({ s with registry := r, host := (t.play h (s.turns poll)).host } :
      Server σ).Attends before (t.play h (s.turns poll)).dialogues := by
    refine ⟨hs.isOpen, hs.native_eq, hr, fun k line hk => ?_⟩
    change line.Awaits ((t.play h (s.turns poll)).dialogues (r.accepted + k))
    rw [hnext, Talks.dialogues_play_of_not_mem (hs.not_mem_turns poll k)]
    exact hs.pending k line hk
  exact ⟨_, runOnce_of_serveReady hs.isOpen hserve, host_finishCycle _ poll,
    hserved.finishCycle poll⟩

/-- Cycles are turns of their peers, one after another. -/
theorem Attends.cycles {t : Talks own σ} (h : Host σ) (polls : List Poll)
    (hs : s.Attends before t.dialogues) (hhost : s.host = t.host) :
    ∃ s', s.cycles h polls = (.ok (), s') ∧ s'.host = (t.play h (s.schedule h polls)).host ∧
      s'.Attends before (t.play h (s.schedule h polls)).dialogues := by
  induction polls generalizing s t with
  | nil => exact ⟨s, rfl, hhost, hs⟩
  | cons poll rest ih =>
    obtain ⟨u, hcycle, huhost, hu⟩ := hs.runOnce h poll hhost
    obtain ⟨s', hrun, hshost, hs'⟩ := ih hu huhost
    have hschedule : s.schedule h (poll :: rest) = s.turns poll ++ u.schedule h rest := by
      rw [schedule, hcycle]
    rw [hschedule, Talks.play_append]
    refine ⟨s', ?_, hshost, hs'⟩
    rw [Server.cycles, hcycle]
    exact hrun

end Server

/-- Whatever the cycles find ready: the server goes on, and what it has done is one interleaving of
what its peers ask. The host has gone from request to request in the order of the turns. Every peer
has been served a beginning of its own requests, in its own order, and the rest is unread on its
line. What was written there are the replies that the host gave to these requests at their places,
and nothing else. A worker leaves only when its peer has nothing more to ask or a reply to it could
not be encoded. The waits are any waits: every line has unread input or is at its end, and one that
stays open and silent is one that no wait finds ready. -/
theorem Server.cycles_interleave (h : Host σ) (polls : List Poll) {s : Server σ}
    {before : List Worker} {dialogues : Nat → Dialogue own} (hs : s.Attends before dialogues) :
    ∃ (s' : Server σ) (t : Talks own σ), s.cycles h polls = (.ok (), s') ∧
      t = Talks.play h (s.schedule h polls) ⟨dialogues, s.host, []⟩ ∧
      t.Since h dialogues s.host ∧ s'.host = t.host ∧ s'.Attends before t.dialogues := by
  obtain ⟨s', hrun, hhost, hs'⟩ :=
    Server.Attends.cycles (t := ⟨dialogues, s.host, []⟩) h polls hs rfl
  exact ⟨s', _, hrun, rfl, (Talks.since_start h dialogues s.host).play _, hhost, hs'⟩

/-- The path has a length that the wire can say. -/
theorem length_ok_lt : (Text.bytes "ok").length < UInt32.size := by decide

/-- The path at which the orderly assignment stores its value. -/
def okPath : Payload := ⟨Text.bytes "ok", length_ok_lt⟩

/-- Reading the path has no fault. -/
theorem sound_get_okPath : (Frame.get okPath : Frame .host).Sound := by
  refine ⟨.get (.parse "ok"), ?_⟩
  have hread : okPath.reading = .done (Text.bytes "ok") := rfl
  rw [Frame.reading, Payload.pathReading, hread]
  simp only [Reading.andThen, Text.decode?_bytes]

/-- A read of what is stored there. -/
def pairLookup : Requests .host .host := .cons (.frame (.get okPath) sound_get_okPath) .nil

/-- One peer that stores a value behind a new handshake, and another one that reads it. -/
def pairDialogues : Nat → Dialogue .host
  | 0 => { format := .host, left := renewal, sent := [] }
  | _ => { format := .host, left := pairLookup, sent := [] }

/-- A server over an empty namespace with a worker for each of them. -/
def pairServer : Server (Namespace Stock) where
  host := .empty
  native := .host
  timeout := none
  registry :=
    { workers :=
        [⟨0, 0, .ofLine (.ofBytes renewal.bytes) .host, false⟩,
          ⟨1, 1, .ofLine (.ofBytes pairLookup.bytes) .host, false⟩]
      accepted := 2
      nextId := 2 }

/-- Both workers of the pair are in their dialogues. -/
theorem pairServer_attends : pairServer.Attends [] pairDialogues := by
  have hworker : ∀ (number : Nat) (id : UInt64) (rs : Requests .host .host),
      Worker.Attends ⟨.host, rs, [], false⟩
        ⟨number, id, .ofLine (.ofBytes rs.bytes) .host, false⟩ :=
    fun _ _ rs => ⟨⟨⟨rfl, rfl⟩, rfl, rfl⟩, Inbound.brings_ofBytes rs.bytes, rfl, nofun⟩
  refine ⟨rfl, rfl, ⟨by decide, fun number => ?_, ?_, nofun⟩, nofun⟩
  · change number ∈ [0, 1] ↔ number < 2
    simp only [List.mem_cons, List.not_mem_nil, or_false]
    omega
  · exact List.forall_mem_cons.mpr ⟨hworker 0 0 _, List.forall_mem_cons.mpr ⟨hworker 1 1 _, nofun⟩⟩

/-- The waits find the first worker ready twice, and then both. -/
def pairPolls : List Poll := [⟨false, (· = 0)⟩, ⟨false, (· = 0)⟩, ⟨false, fun _ => true⟩]

/-- The value is read as it was stored before, and its reader alone is sent it. -/
theorem Server.cycles_interleave_pair :
    ∃ s', pairServer.cycles Namespace.host pairPolls = (.ok (), s') ∧
      ∃ t : Talks .host (Namespace Stock), s'.Attends [] t.dialogues ∧
        t.record.map Turn.number = [0, 0, 1] ∧
        (t.dialogues 0).sent = (Header.ofFormat .host).encode ++ [Status.ready.toByte, 0] ∧
        (t.dialogues 1).sent = [Status.ready.toByte, 2, 1] := by
  obtain ⟨s', t, hrun, ht, -, -, hattends⟩ :=
    Server.cycles_interleave Namespace.host pairPolls pairServer_attends
  refine ⟨s', hrun, t, hattends, ?_⟩
  rw [ht]
  decide +kernel

end RemoteCall
