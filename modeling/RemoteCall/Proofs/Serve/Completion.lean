import RemoteCall.Proofs.Serve.Cut
import RemoteCall.Proofs.Serve.Framing

/-!
# Whole requests and a rest

What a server makes of a stream that ends anywhere. Requests carry no length of their own, so where
one ends is known only by reading it, in the format in force at its place. Each whole request is
carried out once, in order, and of the last one, if it is cut, no operation comes to the host: the
loop then ends with the end of the stream as an error, and without a cut it ends in good order.
-/

namespace RemoteCall

variable {σ : Type}

namespace Requests

variable {own f : Format} {h : Host σ}

/-- The number of the requests that ask for an operation. -/
def frameCount : {f : Format} → Requests own f → Nat
  | _, .nil => 0
  | _, .cons (.frame ..) rest => rest.frameCount + 1
  | _, .cons (.greet ..) rest => rest.frameCount

/-- The first operation is what is read of the first frame. -/
theorem operations_frame {F : Frame f} {sound : F.Sound}
    {rest : Requests own ((Request.frame F sound).next own)} {op : Operation} {s t : σ}
    (hasked : F.asked h s = (.done op, t)) :
    (cons (.frame F sound) rest).operations h s = op :: rest.operations h (op.effect h t) := by
  have heffect : F.effect h s = op.effect h t := by
    rw [Frame.effect, hasked]
  rw [operations]
  simp only [Request.operation?, Request.effect, hasked, heffect]
  rfl

/-- Every frame asks for one operation. -/
theorem length_operations (rs : Requests own f) (s : σ) :
    (rs.operations h s).length = rs.frameCount := by
  induction rs generalizing s with
  | nil => rw [operations, frameCount, List.length_nil]
  | cons r rest ih =>
    cases r with
    | frame F sound =>
      obtain ⟨op, t, hasked, -⟩ := sound.completes h s
      rw [operations_frame hasked, List.length_cons, ih, frameCount]
    | greet header peer valid =>
      rw [operations, frameCount, List.length_append, ih]
      exact Nat.zero_add _

/-- Where adopting leaves no trace, the requests do to the host what their operations do, one after
another. -/
theorem effect_eq_foldl (hkeep : ∀ s bytes, (h.adopt s bytes).2 = s) (rs : Requests own f) (s : σ) :
    rs.effect h s = (rs.operations h s).foldl (fun t op => op.effect h t) s := by
  induction rs generalizing s with
  | nil => rw [effect, operations, List.foldl_nil]
  | cons r rest ih =>
    cases r with
    | frame F sound =>
      obtain ⟨op, t, hasked, hadopts⟩ := sound.completes h s
      rw [operations_frame hasked, List.foldl_cons, effect, Request.effect, Frame.effect, hasked,
        hadopts.eq hkeep]
      exact ih _
    | greet header peer valid =>
      rw [effect, operations]
      exact ih s

end Requests

namespace Serving

variable {f own : Format} {h : Host σ} {s : Served σ} {rest : List UInt8} {after : List Arrival}

/-- On a line that takes everything the loop takes as many rounds as there are requests. Then the
host has seen all of them, all the replies are sent, and what follows is next. -/
theorem serveRequests_of_requests (h : Host σ) (rs : Requests own f) (rounds : Nat)
    (hs : s.conn.Serves own f) (hin : s.conn.line.inbound.Brings (rs.bytes ++ rest) after) :
    ∃ t, serveRequests h (rs.length + rounds) s = serveRequests h rounds t ∧
      t.host = rs.effect h s.host ∧ t.conn.Serves own rs.format ∧
      t.conn.line.inbound.Brings rest after ∧
      t.conn.line.written = s.conn.line.written ++ rs.answered h s.host := by
  induction rs generalizing s with
  | nil =>
    refine ⟨s, ?_, rfl, hs, hin, (List.append_nil _).symm⟩
    rw [Requests.length, Nat.zero_add]
  | cons r requests ih =>
    rw [Requests.bytes_cons, List.append_assoc] at hin
    obtain ⟨t, hadvance, hhost, ht, hnext, hwritten⟩ := advance_request h r hs hin
    obtain ⟨u, hrun, huhost, hu, hunread, huwritten⟩ := ih ht hnext
    refine ⟨u, ?_, ?_, hu, hunread, ?_⟩
    · have hrounds : (Requests.cons r requests).length + rounds = requests.length + rounds + 1 := by
        rw [Requests.length]
        omega
      rw [hrounds, serveRequests_of_advance hadvance, hrun]
    · rw [huhost, hhost, Requests.effect]
    · rw [huwritten, hwritten, hhost, List.append_assoc]
      rfl

/-- The end of the stream fails a server with nothing to serve: without harm behind a whole request,
and for good inside one, of which no operation has come to the host. -/
theorem serveOne_of_cut (h : Host σ) (r : Request f) {cut missing : List UInt8}
    (hs : s.conn.Serves own f) (hcut : cut ++ missing = r.bytes) (hmissing : missing ≠ [])
    (hin : s.conn.line.inbound.Brings cut []) :
    ∃ t, serveOne h s = (.error (if cut = [] then .disconnected else .eof), t) ∧
      h.Adopts s.host t.host ∧
      t.conn.line.written = s.conn.line.written ++ if cut = [] then [] else r.consent := by
  by_cases hbegun : cut = []
  · subst hbegun
    exact ⟨⟨s.conn.withInput ⟨[], []⟩, s.host⟩, serveOne_of_end h hs.openIn hin, .nothing s.host,
      (List.append_nil _).symm⟩
  · obtain ⟨t, hserve, hadopts, -, -, hwritten⟩ :=
      serveOne_cut h r hs hcut hbegun hmissing hin .ending
    rw [if_neg hbegun, if_neg hbegun]
    exact ⟨t, hserve, hadopts, hwritten⟩

/-- At the end of the stream the loop ends: in good order behind a whole request, and with an error
inside one. -/
theorem serveRequests_of_cut {cut : List UInt8} {t : Served σ}
    (hserve : serveOne h s = (.error (if cut = [] then .disconnected else .eof), t))
    (rounds : Nat) :
    serveRequests h (rounds + 1) s = (if cut = [] then .ok () else .error .eof, t) := by
  rw [serveRequests_of_error hserve]
  by_cases hbegun : cut = []
  · simp only [if_pos hbegun]
    rfl
  · simp only [if_neg hbegun]
    rfl

end Serving

open Serving

/-- For a host that adopting leaves as it was: after a handshake, requests and a strict beginning of
one more, the host has been asked for the operation of every whole frame, once and in order, and for
nothing else. All these requests are answered, the last one has at most been consented to, and the
server ends well exactly when nothing of it has arrived. -/
theorem serve_completes (h : Host σ) (s : Served σ) {own f : Format} {header : List UInt8}
    {peer : Header} (rs : Requests own (own.reconcile peer)) (r : Request rs.format)
    {cut missing : List UInt8} (hkeep : ∀ t bytes, (h.adopt t bytes).2 = t)
    (hs : s.conn.Serves own f) (hheader : Header.decode header = .ok peer)
    (hcut : cut ++ missing = r.bytes) (hmissing : missing ≠ [])
    (hin : s.conn.line.inbound.Brings
      (Command.connect.toByte :: (header ++ (rs.bytes ++ cut))) []) :
    ∃ t, serve h s = (if cut = [] then .ok () else .error .eof, t) ∧
      (rs.operations h s.host).length = rs.frameCount ∧
      t.host = (rs.operations h s.host).foldl (fun u op => op.effect h u) s.host ∧
      t.conn.line.written = s.conn.line.written ++ ((Header.ofFormat (own.reconcile peer)).encode ++
        (rs.answered h s.host ++ if cut = [] then [] else r.consent)) := by
  obtain ⟨c, hshake, hc, hrequests, hanswer⟩ := Session.acceptHandshake_serves hs hheader hin
  have hsize := hrequests.length_le_size
  have hlength := rs.length_le_length_bytes
  rw [List.length_append] at hsize
  obtain ⟨rounds, hrounds⟩ : ∃ rounds, c.rounds = rs.length + (rounds + 1) :=
    ⟨c.line.inbound.size - rs.length, by rw [Connection.rounds]; omega⟩
  obtain ⟨t, hrun, hhost, ht, hrest, hanswered⟩ :=
    serveRequests_of_requests (s := ⟨c, s.host⟩) h rs (rounds + 1) hc hrequests
  obtain ⟨u, hserve, hadopts, hconsent⟩ := serveOne_of_cut h r ht hcut hmissing hrest
  have hend := serveRequests_of_cut hserve rounds
  refine ⟨u, ?_, rs.length_operations s.host, ?_, ?_⟩
  · rw [serve_of_handshake hshake, hrounds, hrun, hend]
  · rw [hadopts.eq hkeep, hhost, rs.effect_eq_foldl hkeep]
  · rw [hconsent, hanswered, hanswer, List.append_assoc, List.append_assoc]

/-- The orderly assignment has no fault. -/
theorem orderly_sound : orderly.Sound := ⟨_, rfl⟩

/-- A new handshake, and the orderly assignment behind it. -/
def renewal : Requests .host .host :=
  .cons (.greet (Header.ofFormat .host).encode (.ofFormat .host) rfl)
    (.cons (.frame orderly orderly_sound) .nil)

/-- A beginning of the orderly assignment, which ends behind the path. -/
def begun : List UInt8 := [Command.set.toByte, 0, 0, 0, 0]

/-- Behind a new handshake the orderly assignment is carried out, and of the beginning of another
one nothing is. -/
theorem serve_completes_begun :
    (serve recorder (recording (greeting ++ (renewal.bytes ++ begun)))).1 = .error .eof ∧
    (serve recorder (recording (greeting ++ (renewal.bytes ++ begun)))).2.host = [""] := by
  obtain ⟨t, hrun, -, hhost, -⟩ := @serve_completes _ recorder
    (recording (greeting ++ (renewal.bytes ++ begun))) .host .host (Header.ofFormat .host).encode
    (.ofFormat .host) renewal (.frame orderly orderly_sound) begun (orderly.bytes.drop 5)
    (fun _ _ => rfl) ⟨⟨rfl, rfl⟩, rfl, rfl⟩ rfl (by decide) (by decide) (Inbound.brings_ofBytes _)
  rw [hrun]
  refine ⟨rfl, hhost.trans ?_⟩
  decide +kernel

end RemoteCall
