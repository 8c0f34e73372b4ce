import RemoteCall.Proofs.Serve.Completion
import RemoteCall.Proofs.Server.Containment
import RemoteCall.Proofs.Server.Interleaving

/-!
# The loop on one line and the cycles of a server

A peer that is alone with a server gets from its cycles what it gets from the loop on a single line.
Both are driven by the same services of one request each: while these go well a round of the loop is
a cycle that finds the worker ready, and the failure that ends the one ends the other. A peer that
hangs up in good order costs the server its worker only, and one that hangs up inside a request
stops a server without a handler.
-/

namespace RemoteCall

variable {σ : Type} {h : Host σ}

open Serving

/-- So many requests are served one after another, and none of them fails. -/
inductive ServesWell (h : Host σ) : Nat → Served σ → Served σ → Prop where
  | nothing (a : Served σ) : ServesWell h 0 a a
  | request {n : Nat} {a b c : Served σ} (hserve : serveOne h a = (.ok (), b))
      (rest : ServesWell h n b c) : ServesWell h (n + 1) a c

/-- The loop takes a round for each of them. -/
theorem ServesWell.serveRequests {n : Nat} {a b : Served σ} (hrun : ServesWell h n a b)
    (rounds : Nat) : serveRequests h (n + rounds) a = serveRequests h rounds b := by
  induction hrun with
  | nothing a => rw [Nat.zero_add]
  | request hserve _ ih => rw [Nat.add_right_comm, serveRequests_of_ok hserve, ih]

/-- Requests whose replies can all be sent are served well, one after another. -/
theorem Requests.servesWell {own f : Format} {s : Served σ} {rest : List UInt8}
    {after : List Arrival} (h : Host σ) (rs : Requests own f) (hs : s.conn.Serves own f)
    (hreplies : ∀ e ∈ rs.replies h s.host, e.failure = none)
    (hin : s.conn.line.inbound.Brings (rs.bytes ++ rest) after) :
    ∃ t, ServesWell h rs.length s t ∧ t.host = rs.effect h s.host ∧
      t.conn.Serves own rs.format ∧ t.conn.line.inbound.Brings rest after ∧
      t.conn.line.written = s.conn.line.written ++ rs.answered h s.host := by
  induction rs generalizing s with
  | nil => exact ⟨s, .nothing s, rfl, hs, hin, (List.append_nil _).symm⟩
  | cons r requests ih =>
    rw [Requests.bytes_cons, List.append_assoc] at hin
    obtain ⟨hfirst, hothers⟩ := List.forall_mem_cons.mp hreplies
    obtain ⟨later, hserve, hlater, hnext, hwritten⟩ := serveOne_request h r hs hin
    rw [Emission.outcome_eq_ok.mpr hfirst] at hserve
    obtain ⟨t, hrun, hhost, ht, hunread, hanswered⟩ :=
      ih (s := ⟨later, r.effect h s.host⟩) hlater hothers hnext
    refine ⟨t, .request hserve hrun, hhost, ht, hunread, ?_⟩
    rw [hanswered, hwritten, List.append_assoc]
    rfl

namespace Server

variable {s t : Server σ} {poll : Poll} {polls : List Poll} {number n : Nat} {id : UInt64}
  {a b : Served σ}

/-- The server with this one worker. -/
def tending (s : Server σ) (number : Nat) (id : UInt64) (a : Served σ) : Server σ :=
  { s with
    host := a.host
    registry := { s.registry with workers := [⟨number, id, a.conn, false⟩] } }

/-- The server after this one worker has failed and left. -/
def deserted (s : Server σ) (number : Nat) (id : UInt64) (a : Served σ) : Server σ :=
  { s with
    host := a.host
    registry :=
      { s.registry with
        workers := []
        departed := s.registry.departed ++ [⟨number, id, a.conn.close, true⟩] } }

/-- Where nobody waits nobody is accepted. -/
theorem Accepts.eq_of_nobody {listener : Bool} (hst : Accepts listener s t)
    (hnobody : s.pending = []) : t = s := by
  cases hst with
  | nothing _ => rfl
  | refused hpending _ | taken hpending _ => exact nomatch hnobody.symm.trans hpending

/-- Where no failure is fatal and nobody waits, a cycle is its visits and the sweep behind them. -/
theorem Settled.runOnce_of_nobody (hs : s.Settled) (hnobody : s.pending = [])
    (hcalm : Visit.fatal h (s.visits h poll) = []) :
    s.runOnce h poll = (.ok (), s.swept h (s.visits h poll)) := by
  obtain ⟨t, hrun, hst⟩ := hs.runOnce_of_calm (.inr hcalm)
  rw [hrun, hst.eq_of_nobody hnobody]

/-- An open server with one open worker is settled. -/
theorem settled_tending (hs : s.isOpen = true) (ha : a.conn.isOpen = true) :
    (s.tending number id a).Settled := by
  refine ⟨hs, fun w hw => ?_, fun w hw => ?_⟩
  · rw [List.mem_singleton.mp hw]
  · rw [List.mem_singleton.mp hw]
    exact ha

/-- The one worker that is ready has the only visit. -/
theorem visits_tending (h : Host σ) (hready : isReady poll ⟨number, id, a.conn, false⟩ = true) :
    (s.tending number id a).visits h poll = [⟨⟨number, id, a.conn, false⟩, a.host, true⟩] := by
  simp [visits, Registry.visits, tending, hready]

/-- A request that is served well is a cycle of the one worker. -/
theorem runOnce_tending (hs : s.isOpen = true) (hnobody : s.pending = [])
    (ha : a.conn.isOpen = true) (hready : isReady poll ⟨number, id, a.conn, false⟩ = true)
    (hserve : serveOne h a = (.ok (), b)) :
    (s.tending number id a).runOnce h poll = (.ok (), s.tending number id b) := by
  have hvisits := visits_tending (s := s) h hready
  have hworker : Worker.serve h ⟨number, id, a.conn, false⟩ a.host =
      (none, ⟨number, id, b.conn, false⟩, b.host) := Worker.serve_of_ok hserve
  have hcalm : Visit.fatal h ((s.tending number id a).visits h poll) = [] := by
    rw [hvisits]
    simp [Visit.fatal, Visit.failure?, hworker]
  rw [(settled_tending hs ha).runOnce_of_nobody hnobody hcalm, hvisits]
  simp [swept, tending, Visit.fatal, Visit.failure?, Visit.remaining, Visit.departing, Visit.stays,
    Visit.after, Visit.hostAfter, Visit.next, hworker]

/-- A failure that is not fatal costs the server its worker and nothing else. -/
theorem runOnce_deserted {e : Error} (hs : s.isOpen = true) (hnobody : s.pending = [])
    (ha : a.conn.isOpen = true) (hready : isReady poll ⟨number, id, a.conn, false⟩ = true)
    (hserve : serveOne h a = (.error e, b)) (hmild : e.isFatal = false) :
    (s.tending number id a).runOnce h poll = (.ok (), s.deserted number id b) := by
  have hvisits := visits_tending (s := s) h hready
  have hworker : Worker.serve h ⟨number, id, a.conn, false⟩ a.host =
      (some e, ⟨number, id, b.conn, true⟩, b.host) := Worker.serve_of_error hserve
  have hcalm : Visit.fatal h ((s.tending number id a).visits h poll) = [] := by
    rw [hvisits]
    simp [Visit.fatal, Visit.failure?, hworker, hmild]
  rw [(settled_tending hs ha).runOnce_of_nobody hnobody hcalm, hvisits]
  simp [swept, tending, deserted, Visit.fatal, Visit.failure?, Visit.remaining, Visit.departing,
    Visit.stays, Visit.after, Visit.hostAfter, Visit.next, Worker.close, hworker, hmild]

/-- A fatal failure stops a server without a handler. -/
theorem runOnce_stopped {e : Error} (hs : s.isOpen = true) (hnobody : s.pending = [])
    (hunwatched : s.watched = false) (ha : a.conn.isOpen = true)
    (hready : isReady poll ⟨number, id, a.conn, false⟩ = true)
    (hserve : serveOne h a = (.error e, b)) (hfatal : e.isFatal = true) :
    (s.tending number id a).runOnce h poll =
      (.error e, { s.deserted number id b with isOpen := false }) := by
  have hvisits := visits_tending (s := s) h hready
  have hworker : Worker.serve h ⟨number, id, a.conn, false⟩ a.host =
      (some e, ⟨number, id, b.conn, true⟩, b.host) := Worker.serve_of_error hserve
  have hfailures : Visit.fatal h ((s.tending number id a).visits h poll) = [e] := by
    simp [hvisits, Visit.fatal, Visit.failure?, hworker, hfatal]
  rw [(settled_tending hs ha).runOnce_of_fatal hunwatched hfailures, hvisits]
  simp [shutDown, tending, deserted, Visit.after, Visit.hostAfter, Visit.next,
    Worker.close, hworker, hnobody]

/-- An open server without workers is settled. -/
theorem settled_of_idle (hs : s.isOpen = true) (hidle : s.registry.workers = []) : s.Settled :=
  ⟨hs, by simp [hidle], by simp [hidle]⟩

/-- Without workers there are no visits. -/
theorem visits_of_idle (h : Host σ) (poll : Poll) (hidle : s.registry.workers = []) :
    s.visits h poll = [] := by
  rw [visits, hidle, Registry.visits]

/-- Without a visit there is nobody to sweep. -/
theorem swept_nil (h : Host σ) (hidle : s.registry.workers = []) : s.swept h [] = s := by
  change { s with
    registry := { s.registry with workers := [], departed := s.registry.departed ++ [] }
    reported := s.reported ++ [] : Server σ } = s
  rw [List.append_nil, List.append_nil, ← hidle]

/-- Without workers and without anybody who waits, cycles change nothing. -/
theorem cycles_of_idle (h : Host σ) (polls : List Poll) (hs : s.isOpen = true)
    (hidle : s.registry.workers = []) (hnobody : s.pending = []) :
    s.cycles h polls = (.ok (), s) := by
  induction polls with
  | nil => rfl
  | cons poll rest ih =>
    have hvisits := visits_of_idle h poll hidle
    have hcalm : Visit.fatal h (s.visits h poll) = [] := by rw [hvisits]; rfl
    rw [cycles, (settled_of_idle hs hidle).runOnce_of_nobody hnobody hcalm, hvisits,
      swept_nil h hidle]
    exact ih

/-- A server without workers accepts the one who waits. -/
theorem runOnce_of_arrival {line : Line} {conn : Connection} (h : Host σ) (hs : s.isOpen = true)
    (hidle : s.registry.workers = []) (hpending : s.pending = [line])
    (hgreet : s.greet line = (.ok (), conn)) (hfound : poll.listener = true) :
    s.runOnce h poll = (.ok (),
      ({ s with
          pending := []
          registry :=
            { s.registry with
              accepted := s.registry.accepted + 1
              nextId := s.registry.nextId + 1 } } : Server σ).tending
        s.registry.accepted s.registry.nextId ⟨conn, s.host⟩) := by
  have hvisits := visits_of_idle h poll hidle
  have hcalm : Visit.fatal h (s.visits h poll) = [] := by rw [hvisits]; rfl
  obtain ⟨t, hrun, hst⟩ := (settled_of_idle hs hidle).runOnce_of_calm (.inr hcalm)
  rw [hvisits, swept_nil h hidle, hfound] at hst
  rw [hrun]
  cases hst with
  | nothing hnone =>
    rcases hnone with hnone | hnone
    · exact nomatch hnone
    · exact nomatch hpending.symm.trans hnone
  | refused hfirst hfails =>
    obtain ⟨rfl, -⟩ := List.cons.inj (hpending.symm.trans hfirst)
    exact nomatch (congrArg Prod.fst hgreet).symm.trans hfails
  | taken hfirst hgood =>
    obtain ⟨rfl, rfl⟩ := List.cons.inj (hpending.symm.trans hfirst)
    obtain rfl : conn = _ := congrArg Prod.snd (hgreet.symm.trans hgood)
    simp [tending, Registry.insert, hidle]

/-- At each of these waits every worker that is there is ready. -/
def FindsReady (h : Host σ) : List Poll → Server σ → Prop
  | [], _ => True
  | poll :: rest, s =>
    (∀ w ∈ s.registry.workers, isReady poll w = true) ∧ FindsReady h rest (s.runOnce h poll).2

/-- Waits that find something at every descriptor find every worker ready. -/
theorem findsReady_of_hit (h : Host σ) (hhits : ∀ poll ∈ polls, ∀ number, poll.hit number = true)
    (s : Server σ) : s.FindsReady h polls := by
  induction polls generalizing s with
  | nil => trivial
  | cons poll rest ih =>
    obtain ⟨hhit, hothers⟩ := List.forall_mem_cons.mp hhits
    exact ⟨fun w _ => by rw [isReady, hhit, Bool.or_true], ih hothers _⟩

/-- Requests that are served well are as many cycles of the one worker. -/
theorem cycles_tending (hrun : ServesWell h n a b) (hs : s.isOpen = true)
    (hnobody : s.pending = []) (ha : a.conn.isOpen = true) (hlength : n ≤ polls.length)
    (hready : (s.tending number id a).FindsReady h polls) :
    (s.tending number id a).cycles h polls = (s.tending number id b).cycles h (polls.drop n) ∧
      b.conn.isOpen = true ∧ (s.tending number id b).FindsReady h (polls.drop n) := by
  induction hrun generalizing polls with
  | nothing a => exact ⟨rfl, ha, hready⟩
  | request hserve _ ih =>
    cases polls with
    | nil => exact absurd hlength (Nat.not_succ_le_zero _)
    | cons poll rest =>
      obtain ⟨hnow, hlater⟩ := hready
      obtain ⟨r, hr⟩ := serveOne_ok hserve
      have hcycle := runOnce_tending hs hnobody ha (hnow _ List.mem_cons_self) hserve
      rw [hcycle] at hlater
      rw [cycles, hcycle]
      exact ih hr.isOpen (Nat.le_of_succ_le_succ hlength) hlater

/-- The server is done with its one peer, of whom the loop has left this. The peer was sent the
same, the host is in the same state, and the worker is closed and gone. The server goes on where the
peer has hung up in good order. -/
structure Concludes (s : Server σ) (orderly : Bool) (t : Served σ) (s' : Server σ) : Prop where
  host : s'.host = t.host
  isOpen : s'.isOpen = orderly
  workers : s'.registry.workers = []
  departed : ∃ w : Worker, s'.registry.departed = s.registry.departed ++ [w] ∧
    w.number = s.registry.accepted ∧ w.id = s.registry.nextId ∧ w.conn = t.conn.close ∧
    w.conn.line.written = t.conn.line.written

/-- The failure at the end of a stream ends the cycles as it ends the loop. -/
theorem cycles_of_cut {cut : List UInt8} (hs : s.isOpen = true) (hnobody : s.pending = [])
    (hunwatched : s.watched = false) (ha : a.conn.isOpen = true) (hpolls : polls ≠ [])
    (hready : (s.tending number id a).FindsReady h polls)
    (hserve : serveOne h a = (.error (if cut = [] then .disconnected else .eof), b)) :
    (s.tending number id a).cycles h polls = (if cut = [] then .ok () else .error .eof,
      { s.deserted number id b with isOpen := cut.isEmpty }) := by
  obtain ⟨poll, rest, rfl⟩ := List.exists_cons_of_ne_nil hpolls
  have hnow := hready.1 _ List.mem_cons_self
  by_cases hcut : cut = []
  · subst hcut
    rw [if_pos rfl] at hserve
    have hrest : (s.deserted number id b).cycles h rest = (.ok (), s.deserted number id b) :=
      cycles_of_idle h rest hs rfl hnobody
    rw [cycles, runOnce_deserted hs hnobody ha hnow hserve rfl]
    dsimp only
    rw [hrest, if_pos rfl]
    simp only [deserted, hs, List.isEmpty_nil]
  · rw [if_neg hcut] at hserve
    rw [cycles, runOnce_stopped hs hnobody hunwatched ha hnow hserve rfl, if_neg hcut,
      List.isEmpty_eq_false_iff.mpr hcut]

/-- Whatever the host: a peer that greets, asks for something and hangs up, perhaps inside a last
request, gets the same from the loop on its line and from a server to which nobody else comes, as
long as all replies can be sent and the waits find the worker ready. The bytes are the same, and so
are the states of the host behind them. Inside a request both end with the same failure; otherwise
the loop ends well and the server goes on without its worker. -/
theorem serve_concludes (h : Host σ) {s : Server σ} {line : Line} {header : List UInt8}
    {peer : Header} (rs : Requests s.native (s.native.reconcile peer)) (r : Request rs.format)
    {cut missing : List UInt8} {first : Poll} {polls : List Poll}
    (hopen : s.isOpen = true) (hunwatched : s.watched = false) (hidle : s.registry.workers = [])
    (hpending : s.pending = [line]) (hline : line.isOpen = true) (hfree : line.intake = .free)
    (hheader : Header.decode header = .ok peer)
    (hreplies : ∀ e ∈ rs.replies h s.host, e.failure = none)
    (hcut : cut ++ missing = r.bytes) (hmissing : missing ≠ [])
    (hin : line.inbound.Brings (Command.connect.toByte :: (header ++ (rs.bytes ++ cut))) [])
    (hfound : first.listener = true) (hlength : rs.length < polls.length)
    (hready : s.FindsReady h (first :: polls)) :
    ∃ t s',
      serve h ⟨.ofLine (line.setTimeout s.timeout) s.native, s.host⟩ =
        (if cut = [] then .ok () else .error .eof, t) ∧
      s.cycles h (first :: polls) = (if cut = [] then .ok () else .error .eof, s') ∧
      s.Concludes cut.isEmpty t s' ∧
      t.conn.line.written = line.written ++ ((Header.ofFormat (s.native.reconcile peer)).encode ++
        (rs.answered h s.host ++ if cut = [] then [] else r.consent)) := by
  have hserves : (Connection.ofLine (line.setTimeout s.timeout) s.native).Serves s.native
      s.native := ⟨⟨hline, rfl⟩, rfl, hfree⟩
  obtain ⟨c, hshake, hc, hrequests, hanswer⟩ :=
    Session.acceptHandshake_serves hserves hheader hin
  obtain ⟨b, hwell, -, hb, hrest, hanswered⟩ :=
    rs.servesWell (s := ⟨c, s.host⟩) h hc hreplies hrequests
  obtain ⟨t, hend, -, hconsent⟩ := serveOne_of_cut h r hb hcut hmissing hrest
  have hloop : serve h ⟨.ofLine (line.setTimeout s.timeout) s.native, s.host⟩ =
      (if cut = [] then .ok () else .error .eof, t) := by
    -- The loop has rounds enough for all requests and the end.
    have hsize := hrequests.length_le_size
    have hrounds := rs.length_le_length_bytes
    rw [List.length_append] at hsize
    obtain ⟨rounds, henough⟩ : ∃ rounds, c.rounds = rs.length + (rounds + 1) :=
      ⟨c.line.inbound.size - rs.length, by rw [Connection.rounds]; omega⟩
    rw [serve_of_handshake hshake, henough, hwell.serveRequests, serveRequests_of_cut hend]
  -- The server behind the acceptance, but for its worker.
  let accepting : Server σ :=
    { s with
      pending := []
      registry :=
        { s.registry with
          accepted := s.registry.accepted + 1
          nextId := s.registry.nextId + 1 } }
  have hcycles : s.cycles h (first :: polls) = (if cut = [] then .ok () else .error .eof,
      { accepting.deserted s.registry.accepted s.registry.nextId t with
        isOpen := cut.isEmpty }) := by
    have hpolls : polls.drop rs.length ≠ [] := by
      rw [Ne, List.drop_eq_nil_iff]
      omega
    have hcycle := runOnce_of_arrival h hopen hidle hpending hshake hfound
    have hlater := hready.2
    rw [hcycle] at hlater
    obtain ⟨hrun, hbopen, hleft⟩ := cycles_tending (s := accepting) hwell hopen rfl
      hc.openIn.isOpen (Nat.le_of_lt hlength) hlater
    rw [cycles, hcycle]
    exact hrun.trans (cycles_of_cut hopen rfl hunwatched hbopen hpolls hleft hend)
  refine ⟨t, _, hloop, hcycles, ⟨rfl, rfl, rfl, ?_⟩, ?_⟩
  · exact ⟨⟨s.registry.accepted, s.registry.nextId, t.conn.close, true⟩, rfl, rfl, rfl, rfl, rfl⟩
  · rw [hconsent, hanswered, hanswer, List.append_assoc, List.append_assoc]
    rfl

/-- A peer who hangs up inside the second request behind its greeting. -/
def visitor : Line := .ofBytes (greeting ++ (renewal.bytes ++ begun))

/-- A server for which it waits. -/
def visitedServer : Server (Namespace Stock) where
  host := .empty
  native := .host
  timeout := none
  pending := [visitor]

/-- The line of that peer before the loop on a single line. -/
def visited : Served (Namespace Stock) := ⟨.ofLine (visitor.setTimeout none) .host, .empty⟩

/-- The waits find everything ready. -/
def waits (count : Nat) : List Poll := List.replicate count ⟨true, fun _ => true⟩

/-- The assignment behind the new handshake is carried out by both, and the beginning of another one
stops both. -/
theorem serve_concludes_visitor :
    ∃ t s', serve Namespace.host visited = (.error .eof, t) ∧
      visitedServer.cycles Namespace.host (waits 4) = (.error .eof, s') ∧
      (t.host.get? "ok").isSome = true ∧ (s'.host.get? "ok").isSome = true ∧
      s'.registry.departed.map (fun w => w.conn.line.written) = [t.conn.line.written] := by
  have hheader : Header.decode (Header.ofFormat .host).encode = .ok (.ofFormat .host) := rfl
  have hready : visitedServer.FindsReady Namespace.host (waits 4) :=
    findsReady_of_hit _ (by simp [waits]) _
  obtain ⟨t, s', hloop, hcycles, hends, -⟩ := @serve_concludes _ Namespace.host visitedServer
    visitor (Header.ofFormat .host).encode (.ofFormat .host) renewal (.frame orderly orderly_sound)
    begun (orderly.bytes.drop 5) ⟨true, fun _ => true⟩ (waits 3) rfl rfl rfl rfl rfl rfl hheader
    (by decide +kernel) (by decide) (by decide) (Inbound.brings_ofBytes _) rfl (by decide) hready
  obtain ⟨w, hdeparted, -, -, -, hwritten⟩ := hends.departed
  have ht : t = (serve Namespace.host visited).2 := (congrArg Prod.snd hloop).symm
  have hstored : (t.host.get? "ok").isSome = true := by
    rw [ht]
    decide +kernel
  refine ⟨t, s', hloop, hcycles, hstored, ?_, ?_⟩
  · rw [hends.host]
    exact hstored
  · rw [hdeparted]
    exact congrArg (fun bytes => [bytes]) hwritten

end Server

end RemoteCall
