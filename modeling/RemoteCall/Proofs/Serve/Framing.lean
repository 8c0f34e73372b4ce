import RemoteCall.Proofs.Handshake
import RemoteCall.Proofs.Serve.Round

/-!
# Framing of the serve loop

Whether the serve loop keeps to the requests that a peer has framed. The loop is on track at the
beginning of a round while what is unread are whole frames and the host has seen the frames before
them and nothing else. It leaves the track exactly in a round that gives its frame up early, and
then it takes the rest of a body for requests.
-/

namespace RemoteCall

variable {σ : Type}

namespace Serving

variable {f : Format}

/-- The loop is on track at the beginning of a round: what is unread are the frames from this one
on, and the host has seen the frames before. -/
structure OnTrack (h : Host σ) (frames : List (Frame f)) (init : σ) (n : Nat) (s : Served σ) :
    Prop where
  openIn : s.conn.OpenIn f
  le_length : n ≤ frames.length
  unread : s.conn.line.inbound.Brings (Frame.allBytes (frames.drop n)) []
  host_eq : s.host = (frames.take n).foldl (fun t F => F.effect h t) init

section

variable {h : Host σ} {frames : List (Frame f)} {init : σ} {n : Nat} {s s' : Served σ} {F : Frame f}

/-- The frame of this round is next on the line. -/
theorem OnTrack.unread_frame (hs : OnTrack h frames init n s) (hF : frames[n]? = some F) :
    s.conn.line.inbound.Brings (F.bytes ++ Frame.allBytes (frames.drop (n + 1))) [] := by
  obtain ⟨hn, rfl⟩ := List.getElem?_eq_some_iff.mp hF
  have h := hs.unread
  rw [List.drop_eq_getElem_cons hn, Frame.allBytes_cons] at h
  exact h

/-- With no frame left the stream is at its end. -/
theorem OnTrack.unread_end (hs : OnTrack h frames init n s) (hn : frames[n]? = none) :
    s.conn.line.inbound.Brings [] [] := by
  have h := hs.unread
  rw [List.drop_eq_nil_of_le (List.getElem?_eq_none_iff.mp hn)] at h
  exact h

/-- After one more frame the host has seen the effect of that frame too. -/
theorem foldl_effect_succ (h : Host σ) (init : σ) (hF : frames[n]? = some F) :
    (frames.take (n + 1)).foldl (fun t F => F.effect h t) init =
      F.effect h ((frames.take n).foldl (fun t F => F.effect h t) init) := by
  rw [List.take_add_one, hF, List.foldl_append]
  rfl

/-- A round keeps the loop on track unless its frame is given up early. -/
theorem OnTrack.advance (hs : OnTrack h frames init n s)
    (hstays : ∀ F, frames[n]? = some F → ¬ Derails s F) (hadvance : advance h s = some s') :
    OnTrack h frames init (n + 1) s' ∧ s'.conn.line.intake = s.conn.line.intake := by
  cases hF : frames[n]? with
  | none =>
    have hend := serveOne_of_end h hs.openIn (hs.unread_end hF)
    rw [advance_of_error (congrArg Prod.fst hend)] at hadvance
    exact nomatch hadvance
  | some F =>
    obtain ⟨hopen, hintake, hunread, hhost⟩ :=
      advance_of_not_derails hs.openIn (hs.unread_frame hF) (hstays F hF) hadvance
    refine ⟨⟨hopen, (List.getElem?_eq_some_iff.mp hF).1, hunread, ?_⟩, hintake⟩
    rw [hhost, hs.host_eq, foldl_effect_succ h init hF]

/-- A frame that is given up early takes the loop off the track. -/
theorem OnTrack.not_advance (hs : OnTrack h frames init n s) (hF : frames[n]? = some F)
    (hderails : Derails s F) :
    ∃ s', Serving.advance h s = some s' ∧ ¬ OnTrack h frames init (n + 1) s' := by
  obtain ⟨s', left, hadvance, hleft, hbrings⟩ :=
    advance_of_derails h hs.openIn (hs.unread_frame hF) hderails
  refine ⟨s', hadvance, fun hnext => hleft ?_⟩
  have hsame := hbrings.unique hnext.unread
  exact List.append_left_eq_self.mp hsame

/-- The loop is on track in every round exactly when no frame that it comes to is given up early. -/
theorem onTrack_iff (hs : OnTrack h frames init 0 s) :
    (∀ n s', round? h n s = some s' → OnTrack h frames init n s') ↔
      ∀ n F s', frames[n]? = some F → round? h n s = some s' → ¬ Derails s' F := by
  constructor
  · intro htrack n F t hF ht hderails
    obtain ⟨t', hadvance, hlost⟩ := (htrack n t ht).not_advance hF hderails
    refine hlost (htrack (n + 1) t' ?_)
    rw [round?, ht]
    exact hadvance
  · intro hstays n
    induction n with
    | zero =>
      intro t ht
      cases ht
      exact hs
    | succ n ih =>
      intro t' ht'
      obtain ⟨t, ht, hadvance⟩ := Option.bind_eq_some_iff.mp ht'
      exact ((ih t ht).advance (fun F hF => hstays n F t hF ht) hadvance).1

/-- The round after the next one is the next one of the state after. -/
theorem round?_succ (n : Nat) : round? h (n + 1) s = (Serving.advance h s).bind (round? h n) := by
  induction n with
  | zero =>
    rw [round?, round?, Option.bind_some]
    cases Serving.advance h s <;> rfl
  | succ n ih =>
    rw [round?, ih, Option.bind_assoc]
    rfl

/-- While no frame is given up early, the host ends up with what some of the frames, from the first
one on, have made of it. -/
theorem OnTrack.host_serveRequests (rounds : Nat) (hs : OnTrack h frames init n s)
    (hstays : ∀ m F s', frames[n + m]? = some F → round? h m s = some s' → ¬ Derails s' F) :
    ∃ count ≤ frames.length, (serveRequests h rounds s).2.host =
      (frames.take count).foldl (fun t F => F.effect h t) init := by
  induction rounds generalizing n s with
  | zero => exact ⟨n, hs.le_length, hs.host_eq⟩
  | succ rounds ih =>
    cases hadvance : Serving.advance h s with
    | none =>
      rw [serveRequests_of_stop hadvance]
      cases hF : frames[n]? with
      | none =>
        rw [serveOne_of_end h hs.openIn (hs.unread_end hF)]
        exact ⟨n, hs.le_length, hs.host_eq⟩
      | some F =>
        rcases host_serveOne h hs.openIn (hs.unread_frame hF) with hhost | hhost
        · exact ⟨n, hs.le_length, hhost.trans hs.host_eq⟩
        · refine ⟨n + 1, (List.getElem?_eq_some_iff.mp hF).1, ?_⟩
          rw [hhost, hs.host_eq, foldl_effect_succ h init hF]
    | some t =>
      rw [serveRequests_of_advance hadvance]
      obtain ⟨hnext, -⟩ := hs.advance (fun F hF => hstays 0 F s hF rfl) hadvance
      refine ih hnext fun m F s' hF hround => hstays (m + 1) F s' ?_ ?_
      · rw [← hF]
        congr 1
        omega
      · rw [round?_succ, hadvance]
        exact hround

/-- On a line that takes everything the loop comes to every frame while it is on track. -/
theorem OnTrack.exists_round (hs : OnTrack h frames init 0 s) (hfree : s.conn.line.intake = .free)
    (hstays : ∀ n F s', frames[n]? = some F → round? h n s = some s' → ¬ Derails s' F)
    (hn : n ≤ frames.length) :
    ∃ s', round? h n s = some s' ∧ OnTrack h frames init n s' ∧ s'.conn.line.intake = .free := by
  induction n with
  | zero => exact ⟨s, rfl, hs, hfree⟩
  | succ n ih =>
    obtain ⟨t, hround, ht, htfree⟩ := ih (Nat.le_of_succ_le hn)
    have hF : frames[n]? = some frames[n] := List.getElem?_eq_getElem hn
    have hadvance := advance_of_free h ht.openIn htfree (ht.unread_frame hF)
    obtain ⟨hnext, hintake⟩ := ht.advance (fun F hF => hstays n F t hF hround) hadvance
    refine ⟨(serveOne h t).2, ?_, hnext, hintake.trans htfree⟩
    rw [round?, hround]
    exact hadvance

/-- Without faults before their ends no frame is given up on a line that takes everything. -/
theorem OnTrack.round_of_faultless (hs : OnTrack h frames init 0 s)
    (hfree : s.conn.line.intake = .free) (hframes : ∀ F ∈ frames, F.reading.left = [])
    (hround : round? h n s = some s') :
    OnTrack h frames init n s' ∧ s'.conn.line.intake = .free := by
  induction n generalizing s' with
  | zero =>
    cases hround
    exact ⟨hs, hfree⟩
  | succ n ih =>
    obtain ⟨t, ht, hadvance⟩ := Option.bind_eq_some_iff.mp hround
    obtain ⟨htrack, htfree⟩ := ih ht
    have hstays : ∀ F, frames[n]? = some F → ¬ Derails t F := by
      rintro F hF (htimeout | ⟨-, hleft⟩)
      · rw [consent_of_free htrack.openIn.isOpen htfree] at htimeout
        exact nomatch htimeout
      · exact hleft (hframes F (List.mem_of_getElem? hF))
    obtain ⟨hnext, hintake⟩ := htrack.advance hstays hadvance
    exact ⟨hnext, hintake.trans htfree⟩

/-- On a line that takes everything the loop stays on track exactly when every frame is without a
fault before its end. -/
theorem onTrack_iff_of_free (hs : OnTrack h frames init 0 s) (hfree : s.conn.line.intake = .free) :
    (∀ n s', round? h n s = some s' → OnTrack h frames init n s') ↔
      ∀ F ∈ frames, F.reading.left = [] := by
  constructor
  · intro htrack F hF
    have hstays := (onTrack_iff hs).mp htrack
    obtain ⟨n, hn⟩ := List.mem_iff_getElem?.mp hF
    obtain ⟨t, hround, ht, htfree⟩ :=
      hs.exists_round hfree hstays (Nat.le_of_lt (List.getElem?_eq_some_iff.mp hn).1)
    have hconsent := consent_of_free ht.openIn.isOpen htfree
    exact Classical.not_not.mp fun hleft => hstays n F t hn hround (.inr ⟨hconsent, hleft⟩)
  · intro hframes n t hround
    exact (hs.round_of_faultless hfree hframes hround).1

end

end Serving

open Serving

/-- After a handshake and framed requests the loop begins every round at the next frame, with the
host as the frames before have made it, exactly when it comes to no frame that is given up early:
none whose consent times out, and none with a fault before its end. Then the host ends up with what
the frames, from the first one on, ask for. On a line that takes everything the condition is one on
the frames alone. -/
theorem serve_onTrack_iff (h : Host σ) (s : Served σ) (peer : Header) {c : Connection}
    (frames : List (Frame (s.conn.native.reconcile peer))) (hopen : s.conn.isOpen = true)
    (hpeer : peer.IsValid)
    (hin : s.conn.line.inbound.Brings
      (Command.connect.toByte :: (peer.encode ++ Frame.allBytes frames)) [])
    (hshake : Session.acceptHandshake s.conn = (.ok (), c)) :
    ((∀ n s', round? h n ⟨c, s.host⟩ = some s' → OnTrack h frames s.host n s') ↔
      ∀ n F s', frames[n]? = some F → round? h n ⟨c, s.host⟩ = some s' → ¬ Derails s' F) ∧
    ((∀ n F s', frames[n]? = some F → round? h n ⟨c, s.host⟩ = some s' → ¬ Derails s' F) →
      ∃ count ≤ frames.length, (serve h s).2.host =
        (frames.take count).foldl (fun t F => F.effect h t) s.host) ∧
    (s.conn.line.intake = .free →
      ((∀ n s', round? h n ⟨c, s.host⟩ = some s' → OnTrack h frames s.host n s') ↔
        ∀ F ∈ frames, F.reading.left = [])) := by
  obtain ⟨later, hlater, hsettle⟩ :=
    Session.acceptHandshake_run hopen (Header.decode_encode hpeer) hin
  rw [hshake] at hsettle
  have hopen' : (s.conn.withInput later).isOpen = true := hopen
  obtain ⟨hc, hinbound, hintake, -⟩ := Session.settle_ok hopen' hsettle.symm
  have hstart : OnTrack h frames s.host 0 ⟨c, s.host⟩ := by
    refine ⟨hc, Nat.zero_le _, ?_, rfl⟩
    rw [hinbound]
    exact hlater
  refine ⟨onTrack_iff hstart, ?_, ?_⟩
  · intro hstays
    rw [serve_of_handshake hshake]
    refine hstart.host_serveRequests _ fun m F s' hF hround => hstays m F s' ?_ hround
    rwa [Nat.zero_add] at hF
  · intro hfree
    exact onTrack_iff_of_free hstart (hintake.trans hfree)

/-- A host that records the paths of the assignments it is asked for. -/
def recorder : Host (List String) where
  resolve _ p := .error (.ofMissing p)
  assign log p _ _ := (.ok (), log ++ [p.text])
  invoke log p _ := (.error (.notCallable p.text), log)
  adopt := keepBlob

/-- A recording server that has this to read. -/
def recording (input : List UInt8) : Served (List String) := ⟨.ofLine (.ofBytes input) .host, []⟩

/-- A handshake of two sides with the same format. -/
def greeting : List UInt8 := Command.connect.toByte :: (Header.ofFormat .host).encode

/-- The assignment of a global. -/
def orderly : Frame .host :=
  .set .empty (.string ⟨Text.bytes "ok", by decide⟩) (.boolean 1)

/-- The loop carries out an orderly assignment and stays on track through it. -/
theorem serve_onTrack_iff_orderly :
    (serve recorder (recording (greeting ++ orderly.bytes))).2.host = [""] ∧
    ∀ n s', round? recorder n
        ⟨(Session.acceptHandshake (recording (greeting ++ orderly.bytes)).conn).2, []⟩ = some s' →
      OnTrack recorder [orderly] [] n s' := by
  have hshake : (Session.acceptHandshake (recording (greeting ++ orderly.bytes)).conn) =
      (.ok (), (Session.acceptHandshake (recording (greeting ++ orderly.bytes)).conn).2) := rfl
  have hfaultless : ∀ F ∈ [orderly], F.reading.left = [] := by
    intro F hF
    rw [List.mem_singleton.mp hF]
    decide +kernel
  have hin : (recording (greeting ++ orderly.bytes)).conn.line.inbound.Brings
      (Command.connect.toByte :: ((Header.ofFormat .host).encode ++ Frame.allBytes [orderly])) [] :=
    Inbound.brings_ofBytes _
  have hserve := serve_onTrack_iff recorder (recording (greeting ++ orderly.bytes))
    (.ofFormat .host) [orderly] rfl (Header.isValid_ofFormat rfl) hin hshake
  exact ⟨by decide +kernel, (hserve.2.2 rfl).mpr hfaultless⟩

/-- An assignment whose path is no text and whose key is a table that looks like an assignment of a
global. -/
def misleading : Frame .host :=
  .set ⟨[255], by decide⟩
    (.table [(.nil, .nil), (.nil, .nil),
      (.string ⟨Text.bytes "pwned", by decide⟩, .boolean 1)]) .nil

/-- The loop goes on in the body of an assignment that it has refused and carries out what stands
there: the host is asked to assign a global, which no frame asks for. -/
theorem serve_leaves_frame :
    (serve recorder (recording (greeting ++ Frame.allBytes [misleading]))).2.host = [""] ∧
    ∀ count, ([misleading].take count).foldl (fun t F => F.effect recorder t) [] =
      ([] : List String) := by
  refine ⟨by decide +kernel, fun count => ?_⟩
  cases count with
  | zero => rfl
  | succ count =>
    rw [List.take_succ_cons, List.take_nil]
    decide +kernel

end RemoteCall
