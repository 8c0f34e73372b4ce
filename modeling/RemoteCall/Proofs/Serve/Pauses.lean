import RemoteCall.Proofs.Line.Pauses
import RemoteCall.Proofs.Serve.Completion

/-!
# Paused requests

What timeouts do to a server. The serve loop takes every timeout for an idle one and goes on. That
is right while the pauses fall between requests: they then change nothing but the number of rounds.
Where a pause falls inside a request, what has been read of the request is lost, and the loop takes
the rest of it for requests.
-/

namespace RemoteCall

variable {σ : Type}

namespace Serving

variable {own f : Format} {h : Host σ} {s : Served σ} {pieces : List (List UInt8)}

/-- A pause between two requests is an idle one, and the loop goes on. -/
theorem serveOne_idle (h : Host σ) (hs : s.conn.Serves own f)
    (hin : s.conn.line.inbound.Paced ([] :: pieces)) (hne : pieces ≠ []) :
    ∃ c, serveOne h s = (.error .timeout, ⟨c, s.host⟩) ∧ c.Serves own f ∧
      c.line.inbound.Paced pieces ∧ c.line.written = s.conn.line.written := by
  obtain ⟨e, later, hbrings, he, hrest⟩ := hin.pause_next hne
  have hserve := serveOne_of_pause h hs.openIn hbrings (Error.kind_ne_interrupted he)
  rw [he] at hserve
  exact ⟨_, hserve, hs.withInput _, hrest, rfl⟩

/-- Pauses between requests change nothing: the host sees all the requests in order, every reply is
sent, and at the end of the stream the loop ends in good order. -/
theorem serveRequests_of_arriveWhole (rs : Requests own f) (hs : s.conn.Serves own f)
    (hwhole : ArriveWhole rs.units pieces) (hin : s.conn.line.inbound.Paced pieces) {rounds : Nat}
    (hrounds : rs.length + pieces.length ≤ rounds) :
    ∃ t, serveRequests h rounds s = (.ok (), t) ∧ t.host = rs.effect h s.host ∧
      t.conn.line.written = s.conn.line.written ++ rs.answered h s.host := by
  generalize hunits : rs.units = units at hwhole
  -- Each way to go on takes a request or a pause, so the rounds last.
  induction hwhole generalizing f s rounds with
  | nil =>
    obtain ⟨rounds, rfl⟩ : ∃ n, rounds = n + 1 := ⟨rounds - 1, by simp at hrounds; omega⟩
    cases rs with
    | cons r rest => exact nomatch hunits
    | nil =>
      have hserve := serveOne_of_end h hs.openIn hin.brings_last
      refine ⟨⟨s.conn.withInput ⟨[], []⟩, s.host⟩, ?_, rfl, (List.append_nil _).symm⟩
      rw [serveRequests_of_error hserve]
      rfl
  | @pause units pieces rest ih =>
    rw [List.length_cons] at hrounds
    obtain ⟨rounds, rfl⟩ : ∃ n, rounds = n + 1 := ⟨rounds - 1, by omega⟩
    obtain ⟨c, hserve, hc, hnext, hwritten⟩ := serveOne_idle h hs hin rest.ne_nil
    have hleft : rs.length + pieces.length ≤ rounds := by omega
    obtain ⟨t, hrun, hhost, hsent⟩ := ih rs (s := ⟨c, s.host⟩) hc hnext hleft hunits
    refine ⟨t, ?_, hhost, ?_⟩
    · rw [serveRequests_of_error hserve, ← hrun]
      rfl
    · rw [hsent, hwritten]
  | @unit u piece units pieces rest ih =>
    cases rs with
    | nil => exact nomatch hunits
    | cons r rs =>
      rw [Requests.units, List.cons.injEq] at hunits
      obtain ⟨rfl, hunits⟩ := hunits
      rw [List.length_cons, Requests.length] at hrounds
      obtain ⟨rounds, rfl⟩ : ∃ n, rounds = n + 1 := ⟨rounds - 1, by omega⟩
      have hleft : rs.length + (piece :: pieces).length ≤ rounds := by
        rw [List.length_cons]
        omega
      obtain ⟨after, hbrings, hpaced⟩ := hin.brings
      obtain ⟨t, hadvance, hhost, ht, hnext, hwritten⟩ := advance_request h r hs hbrings
      obtain ⟨u, hrun, huhost, husent⟩ := ih rs ht (hpaced _ _ hnext) hleft hunits
      refine ⟨u, ?_, ?_, ?_⟩
      · rw [serveRequests_of_advance hadvance, hrun]
      · rw [huhost, hhost, Requests.effect]
      · rw [husent, hwritten, hhost, List.append_assoc]
        rfl

/-- The rounds of the loop last for all the requests. -/
theorem serveRequests_rounds (h : Host σ) (rs : Requests own f) (hs : s.conn.Serves own f)
    (hwhole : ArriveWhole rs.units pieces) (hin : s.conn.line.inbound.Paced pieces) :
    ∃ t, serveRequests h s.conn.rounds s = (.ok (), t) ∧ t.host = rs.effect h s.host ∧
      t.conn.line.written = s.conn.line.written ++ rs.answered h s.host := by
  have hsize := hin.length_le_size
  have hlength := rs.length_le_length_bytes
  rw [hwhole.flatten_eq, rs.flatten_units] at hsize
  apply serveRequests_of_arriveWhole rs hs hwhole hin
  rw [Connection.rounds]
  omega

/-- In some round the loop begins a request, and it begins the next round inside it: a read of the
request has timed out, its beginning is lost, and the rest of it is next on the line. -/
def BreaksInto (h : Host σ) (start : Served σ) : Prop :=
  ∃ n t t', round? h n start = some t ∧ round? h (n + 1) start = some t' ∧
    ∃ (g : Format) (r : Request g) (part missing : List UInt8) (pieces : List (List UInt8)),
      t.conn.OpenIn g ∧ part ++ missing = r.bytes ∧ part ≠ [] ∧ missing ≠ [] ∧
      t.conn.line.inbound.Paced (part :: pieces) ∧ t'.conn.line.inbound.Paced pieces ∧
      missing <+: pieces.flatten

/-- A loop that is broken into a round later is broken into. -/
theorem BreaksInto.of_advance {t : Served σ} (hadvance : advance h s = some t)
    (ht : BreaksInto h t) : BreaksInto h s := by
  obtain ⟨n, u, v, hu, hv, hbreaks⟩ := ht
  refine ⟨n + 1, u, v, ?_, ?_, hbreaks⟩
  · rw [round?_succ, hadvance]
    exact hu
  · rw [round?_succ, hadvance]
    exact hv

/-- A request with a pause inside it is lost, and the loop goes on in what is left of it. -/
theorem breaksInto_of_cut {r : Request f} {part missing : List UInt8} (h : Host σ)
    (hs : s.conn.Serves own f) (hpart : part ++ missing = r.bytes) (hbegun : part ≠ [])
    (hmissing : missing ≠ []) (hin : s.conn.line.inbound.Paced (part :: pieces))
    (hne : pieces ≠ []) (hrest : missing <+: pieces.flatten) : BreaksInto h s := by
  obtain ⟨e, later, hbrings, he, hpaced⟩ := hin.pause_next hne
  have hmeets : Inbound.Meets (.fault e :: later) .timeout later := by
    rw [← he]
    exact .fault e later (Error.kind_ne_interrupted he)
  obtain ⟨t, hserve, -, -, hinput, -⟩ :=
    serveOne_cut h r hs hpart hbegun hmissing hbrings hmeets
  have hadvance : advance h s = some t := by
    rw [advance_of_error (congrArg Prod.fst hserve), hserve]
    rfl
  refine ⟨0, s, t, rfl, hadvance, f, r, part, missing, _, hs.openIn, hpart, hbegun, hmissing, hin,
    ?_, hrest⟩
  rw [hinput]
  exact hpaced

/-- Where some pause falls inside a request, the loop comes to begin a round inside a request. -/
theorem breaksInto_of_not_arriveWhole (h : Host σ) (rs : Requests own f) (hs : s.conn.Serves own f)
    (hin : s.conn.line.inbound.Paced pieces) (hflat : pieces.flatten = rs.bytes)
    (hwhole : ¬ ArriveWhole rs.units pieces) : BreaksInto h s := by
  induction rs generalizing pieces s with
  | nil => exact absurd (ArriveWhole.of_flatten_eq_nil hin.ne_nil hflat) hwhole
  | cons r rs ih =>
    -- The pauses before the request are idle ones, so the induction is on the pieces as well.
    induction pieces generalizing s with
    | nil => exact absurd rfl hin.ne_nil
    | cons piece pieces ihpieces =>
      by_cases hlast : pieces = []
      · subst hlast
        rw [List.flatten_cons, List.flatten_nil, List.append_nil, ← Requests.flatten_units] at hflat
        subst hflat
        exact absurd (ArriveWhole.of_flatten _) hwhole
      · by_cases hpiece : piece = []
        · subst hpiece
          obtain ⟨c, hserve, hc, hnext, -⟩ := serveOne_idle h hs hin hlast
          have hadvance : advance h s = some ⟨c, s.host⟩ := by
            rw [advance_of_error (congrArg Prod.fst hserve), hserve]
            rfl
          have hrest : BreaksInto h ⟨c, s.host⟩ :=
            ihpieces hc hnext hflat fun hrest => hwhole (.pause hrest)
          exact hrest.of_advance hadvance
        · rw [List.flatten_cons, Requests.bytes_cons] at hflat
          rcases Reader.append_eq_append_cases hflat with ⟨left, hleft, hcut⟩ | ⟨begun, rfl, hrest⟩
          · have hmissing : left <+: pieces.flatten := by
              refine ⟨rs.bytes, ?_⟩
              rw [← hcut, List.append_assoc] at hflat
              exact (List.append_cancel_left hflat).symm
            exact breaksInto_of_cut h hs hcut hpiece hleft hin hlast hmissing
          · obtain ⟨after, hbrings, hpaced⟩ := hin.brings
            obtain ⟨t, hadvance, -, ht, hnext, -⟩ := advance_request h r hs hbrings
            have hlater : BreaksInto h t :=
              ih ht (hpaced _ _ hnext) hrest fun hrest => hwhole (.unit hrest)
            exact hlater.of_advance hadvance

end Serving

end RemoteCall
