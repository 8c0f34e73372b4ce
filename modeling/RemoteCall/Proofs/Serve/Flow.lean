import RemoteCall.Proofs.Flow
import RemoteCall.Proofs.Serve.Closed
import RemoteCall.Proofs.Serve.Round

/-!
# Serving a flow

A server makes the same of two connections with the same flow: request by request, and in its loop
from the handshake on. The loop bounds its rounds by the size of the input, which is not a matter of
the flow; but each round that goes on takes something from the flow, so any two sufficient bounds
make the same of it.
-/

namespace RemoteCall

variable {σ α β : Type}

/-- What can be told of a served connection. -/
def Served.observed (s : Served σ) : (Flow × Connection) × σ := (s.conn.observed, s.host)

namespace Serving

open Session

variable {h : Host σ} {s s' : Served σ}

/-- What the computation comes to is a matter of what can be told of the connection. -/
abbrev Respects (x : Serving σ α) : Prop :=
  RemoteCall.Respects Served.observed (fun seen => seen.1.1.length) x

/-- A session that reads the flow alone does so inside the server. -/
theorem respects_onConn {x : Session α} (hx : Session.Respects x) :
    Respects (onConn x : Serving σ α) := by
  constructor
  · intro s s' hview
    obtain ⟨hconn, hhost⟩ := Prod.mk.inj hview
    obtain ⟨hresult, hleft⟩ := hx.alike s.conn s'.conn hconn
    exact ⟨hresult, Prod.ext hleft hhost⟩
  · intro s
    exact hx.shrinks s.conn

/-- The host does not look at the line. -/
theorem respects_onHost (act : σ → α × σ) : Respects (onHost act) := by
  constructor
  · intro s s' hview
    obtain ⟨hconn, hhost⟩ := Prod.mk.inj hview
    simp only [onHost, Served.observed, hconn, hhost, and_self]
  · intro s
    exact Nat.le_refl _

/-- Serving a request respects the flow, for everything it is put together from does. -/
theorem closed_respects : Closed (σ := σ) Respects where
  result := respects_pure
  violation _ := respects_throw _
  command _ := respects_throw _
  host := respects_onHost
  string := respects_onConn respects_readString
  word := respects_onConn respects_readWord
  value := respects_onConn respects_readValue
  send _ := respects_onConn (respects_send _)
  flush := respects_onConn respects_flush
  negotiate := respects_onConn respects_negotiateServer
  seq hx hk := hx.bind hk

/-- Serving a request reads the flow alone. -/
theorem respects_serveOne (h : Host σ) : Respects (serveOne h) := by
  rw [serveOne_eq]
  exact (respects_onConn respects_readCommand).bind (closed_respects.serveCommand h)

end Serving

/-! ### Rounds -/

/-- The rounds of a loop outnumber what is found on the line. -/
theorem Connection.pending_lt_rounds (c : Connection) : c.pending < c.rounds :=
  Nat.lt_succ_of_le c.line.inbound.length_flow_le_size

namespace Serving

open Session

variable {h : Host σ}

/-- Awaiting a handshake reads the flow alone, however many rounds it takes. -/
theorem respects_awaitHandshake (rounds : Nat) : Session.Respects (awaitHandshake rounds) := by
  induction rounds with
  | zero => exact respects_throw Error.eof
  | succ rounds ih =>
    constructor
    · intro c d hview
      obtain ⟨hresult, hleft⟩ := respects_acceptHandshake.alike c d hview
      by_cases htime : (acceptHandshake c).1 = .error .timeout
      · rw [awaitHandshake_of_timeout (Prod.ext htime rfl),
          awaitHandshake_of_timeout (Prod.ext (hresult.symm.trans htime) rfl)]
        exact ih.alike _ _ hleft
      · rw [awaitHandshake_of_ne_timeout htime, awaitHandshake_of_ne_timeout (hresult ▸ htime)]
        exact ⟨hresult, hleft⟩
    · intro c
      have hfirst := respects_acceptHandshake.shrinks c
      by_cases htime : (acceptHandshake c).1 = .error .timeout
      · rw [awaitHandshake_of_timeout (Prod.ext htime rfl)]
        exact Nat.le_trans (ih.shrinks _) hfirst
      · rw [awaitHandshake_of_ne_timeout htime]
        exact hfirst

/-- A handshake that starts over has less on the line than before. -/
theorem awaitHandshake_bound (c : Connection) (n m : Nat) (hn : c.pending < n)
    (hm : c.pending < m) : awaitHandshake n c = awaitHandshake m c := by
  induction n generalizing c m with
  | zero => exact absurd hn (Nat.not_lt_zero _)
  | succ n ih =>
    obtain ⟨m, rfl⟩ : ∃ k, m = k + 1 := ⟨m - 1, by omega⟩
    by_cases htime : (acceptHandshake c).1 = .error .timeout
    · rw [awaitHandshake_of_timeout (Prod.ext htime rfl),
        awaitHandshake_of_timeout (Prod.ext htime rfl)]
      rcases advances_acceptHandshake c with hless | ⟨e, he, hfinal⟩
      · have hlater : (acceptHandshake c).2.pending < c.pending := hless
        exact ih (acceptHandshake c).2 m (by omega) (by omega)
      · have htimeout : e = .timeout := Except.error.inj (he.symm.trans htime)
        exact absurd (by rw [htimeout]; rfl) hfinal
    · rw [awaitHandshake_of_ne_timeout htime, awaitHandshake_of_ne_timeout htime]

/-- The computation gets on with what is found on the line, unless it fails for good. -/
abbrev Advances (x : Serving σ α) : Prop :=
  RemoteCall.Advances Served.observed (fun seen => seen.1.1.length) x

/-- Serving a request gets on, unless it fails for good. -/
theorem advances_serveOne (h : Host σ) : Advances (serveOne h) := by
  have hcommand : Advances (onConn readCommand : Serving σ UInt8) := fun s =>
    advances_readCommand s.conn
  rw [serveOne_eq]
  exact hcommand.bind (closed_respects.serveCommand h)

/-- Where there is nothing to tell between two states, the loop goes on in both or in neither. -/
theorem advance_alike {s s' : Served σ} (hview : s.observed = s'.observed) :
    advance h s = none ↔ advance h s' = none := by
  rw [advance_eq_none_iff, advance_eq_none_iff, ((respects_serveOne h).alike s s' hview).1]

/-- Serving requests reads the flow alone, however many rounds it takes. -/
theorem respects_serveRequests (h : Host σ) (rounds : Nat) : Respects (serveRequests h rounds) := by
  induction rounds with
  | zero => exact respects_throw Error.eof
  | succ rounds ih =>
    constructor
    · intro s s' hview
      obtain ⟨hresult, hleft⟩ := (respects_serveOne h).alike s s' hview
      by_cases hstop : advance h s = none
      · rw [serveRequests_of_stop hstop, serveRequests_of_stop ((advance_alike hview).mp hstop),
          hresult]
        exact ⟨rfl, hleft⟩
      · rw [serveRequests_of_advance (advance_of_ne_none hstop),
          serveRequests_of_advance (advance_of_ne_none (mt (advance_alike hview).mpr hstop))]
        exact ih.alike _ _ hleft
    · intro s
      have hfirst := (respects_serveOne h).shrinks s
      by_cases hstop : advance h s = none
      · rw [serveRequests_of_stop hstop]
        exact hfirst
      · rw [serveRequests_of_advance (advance_of_ne_none hstop)]
        exact Nat.le_trans (ih.shrinks _) hfirst

/-- A round after which the loop goes on leaves less on the line than before. -/
theorem serveRequests_bound (h : Host σ) (s : Served σ) (n m : Nat) (hn : s.conn.pending < n)
    (hm : s.conn.pending < m) : serveRequests h n s = serveRequests h m s := by
  induction n generalizing s m with
  | zero => exact absurd hn (Nat.not_lt_zero _)
  | succ n ih =>
    obtain ⟨m, rfl⟩ : ∃ k, m = k + 1 := ⟨m - 1, by omega⟩
    by_cases hstop : advance h s = none
    · rw [serveRequests_of_stop hstop, serveRequests_of_stop hstop]
    · have hnext := advance_of_ne_none hstop
      rw [serveRequests_of_advance hnext, serveRequests_of_advance hnext]
      have hless : (serveOne h s).2.conn.pending < s.conn.pending :=
        (advances_serveOne h s).resolve_right (mt advance_eq_none_iff.mpr hstop)
      exact ih _ m (by omega) (by omega)

/-- The loop for one peer reads the flow alone. -/
theorem respects_serve (h : Host σ) : Respects (serve h) := by
  have hawait : Session.Respects fun c => awaitHandshake c.rounds c :=
    Respects.of_bound respects_awaitHandshake awaitHandshake_bound Connection.pending_lt_rounds
  refine (respects_onConn hawait).bind fun _ => ?_
  exact Respects.of_bound (respects_serveRequests h) (serveRequests_bound h) fun s =>
    s.conn.pending_lt_rounds

end Serving

end RemoteCall
