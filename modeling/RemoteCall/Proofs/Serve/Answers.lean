import RemoteCall.Proofs.Serve.Framing
import RemoteCall.Proofs.Serve.Stream

/-!
# Complete replies

Whether what is sent in a round is a reply. A complete reply is the consent and behind it what the
command promises: a status with the results or the failure of a call, the value of a read, a status
or a failure of an assignment. No byte string that begins with one reply to a command begins with
another one, so a reply that is cut short is none. The loop goes on behind it all the same.
-/

namespace RemoteCall

variable {σ : Type}

/-- The reply to the command begins with a status byte. -/
def Command.HasStatus (c : Command) : Prop := c = .call ∨ c = .set

/-- A complete reply to a request with this command. -/
inductive Reply (f : Format) : Command → Type where
  | results (values : List (Term f)) (length_lt : values.length < UInt32.size) : Reply f .call
  | value (value : Term f) : Reply f .get
  | assigned : Reply f .set
  | failure {c : Command} (hasStatus : c.HasStatus) (code : UInt32) (message : Payload) : Reply f c

namespace Reply

variable {f : Format} {c : Command}

/-- What stands behind the consent. -/
def answer : {c : Command} → Reply f c → List UInt8
  | _, .results values _ =>
    0 :: (f.wordBytes (UInt32.ofNat values.length) ++ Term.allBytes values)
  | _, .value t => t.bytes
  | _, .assigned => [0]
  | _, .failure _ code message => 1 :: (f.wordBytes code ++ message.wire f)

/-- The bytes of a reply. -/
def bytes (R : Reply f c) : List UInt8 := Status.ready.toByte :: R.answer

/-- A reply is recognised at the beginning of a byte string. -/
theorem bytes_append_inj (R S : Reply f c) {r s : List UInt8} (h : R.bytes ++ r = S.bytes ++ s) :
    R = S ∧ r = s := by
  have hanswer : R.answer ++ r = S.answer ++ s := (List.cons.inj h).2
  cases R with
  | results vs hvs =>
    cases S with
    | results ws hws =>
      simp only [answer, List.cons_append, List.append_assoc, List.cons.injEq, true_and] at hanswer
      obtain ⟨hcount, hterms⟩ := List.append_inj hanswer (by simp)
      have hlength := congrArg UInt32.toNat (f.wordBytes_inj.mp hcount)
      rw [UInt32.toNat_ofNat', UInt32.toNat_ofNat', Nat.mod_eq_of_lt hvs,
        Nat.mod_eq_of_lt hws] at hlength
      obtain ⟨rfl, hrest⟩ := Term.allBytes_append_inj hlength hterms
      exact ⟨rfl, hrest⟩
    | failure hc code message => simp [answer] at hanswer
  | value t =>
    cases S with
    | value u =>
      obtain ⟨rfl, hrest⟩ := t.bytes_append_inj u hanswer
      exact ⟨rfl, hrest⟩
    | failure hc code message => exact absurd hc (by simp [Command.HasStatus])
  | assigned =>
    cases S with
    | assigned => exact ⟨rfl, (List.cons.inj hanswer).2⟩
    | failure hc code message => simp [answer] at hanswer
  | failure hc code message =>
    cases S with
    | results ws hws => simp [answer] at hanswer
    | value u => exact absurd hc (by simp [Command.HasStatus])
    | assigned => simp [answer] at hanswer
    | failure hc' code' message' =>
      simp only [answer, List.cons_append, List.append_assoc, List.cons.injEq, true_and] at hanswer
      obtain ⟨hcode, hmessage⟩ := List.append_inj hanswer (by simp)
      obtain ⟨rfl, hrest⟩ := Payload.wire_append_inj hmessage
      cases f.wordBytes_inj.mp hcode
      exact ⟨rfl, hrest⟩

end Reply

namespace Operation

variable {f : Format} {h : Host σ} {s : σ}

/-- What a host in this state makes of the operation has a complete reply: countable results that
can be encoded, a value that can be encoded or is missing, and otherwise a failure whose text is
short enough, which a read has no reply for. -/
def Answerable (f : Format) (h : Host σ) (s : σ) : Operation → Prop
  | .call path args =>
    match (h.invoke s path args).1 with
    | .ok results => results.length < UInt32.size ∧ ∀ v ∈ results, v.Encodable f
    | .error e => Text.Fits e.message
  | .get path =>
    match h.resolve s path with
    | .ok v => v.Encodable f
    | .error e => e.isNotFound = true
  | .set path key value =>
    match (h.assign s path key value).1 with
    | .ok () => True
    | .error e => Text.Fits e.message

/-- An answer is sent as a whole exactly when there is a complete reply. -/
theorem answer_failure_eq_none (op : Operation) :
    (op.answer f h s).failure = none ↔ op.Answerable f h s := by
  cases op with
  | call path args =>
    dsimp only [answer, Answerable]
    cases (h.invoke s path args).1 with
    | error e => exact failureReply_failure_eq_none
    | ok results =>
      by_cases hcount : UInt32.size ≤ results.length
      · simp [hcount, Nat.not_lt_of_le hcount, Emission.fail]
      · simp only [hcount, ↓reduceIte, resultsReply, Emission.append_failure_eq_none,
          Emission.values_failure_eq_none, Nat.lt_of_not_le hcount, true_and]
        exact ⟨fun hall => hall.2.2, fun hall => ⟨rfl, rfl, hall⟩⟩
  | get path =>
    dsimp only [answer, Answerable]
    cases h.resolve s path with
    | ok v => exact Iff.rfl
    | error e =>
      cases hmissing : e.isNotFound with
      | false => simp [hmissing, Emission.fail]
      | true =>
        simp only [hmissing, ↓reduceIte, iff_true]
        rfl
  | set path key value =>
    dsimp only [answer, Answerable]
    cases (h.assign s path key value).1 with
    | ok u => simp [Emission.byte, Emission.ofBytes]
    | error e => exact failureReply_failure_eq_none

/-- A failure of the host is sent as a complete reply, or a strict beginning of one. -/
theorem failureReply_begins (f : Format) {c : Command} (hc : c.HasStatus) (code : UInt32)
    (message : String) :
    ∃ R : Reply f c, (failureReply f code message).Begins R.answer True := by
  obtain ⟨payload, hpayload⟩ := Emission.string_begins f (Text.bytes message)
  have hcode : (Emission.word f code).Begins (f.wordBytes code) True := .whole _ trivial
  refine ⟨.failure hc code payload, ?_⟩
  exact ((hcode.append hpayload).cons 1).imp fun _ => trivial

/-- An answer is sent as the rest of a complete reply, or a strict beginning of it. -/
theorem answer_begins (hf : f.isSupported = true) (op : Operation) :
    ∃ R : Reply f op.command, (op.answer f h s).Begins R.answer True := by
  cases op with
  | call path args =>
    dsimp only [answer]
    cases (h.invoke s path args).1 with
    | error e => exact failureReply_begins f (.inl rfl) e.code e.message
    | ok results =>
      by_cases hcount : UInt32.size ≤ results.length
      · refine ⟨.results [] (Nat.succ_pos _), ?_⟩
        simp only [hcount, ↓reduceIte]
        exact Emission.begins_fail _ (List.cons_ne_nil _ _)
      · obtain ⟨ts, hlength, hts⟩ := Frame.values_begin hf results
        have hword : (Emission.word f (UInt32.ofNat results.length)).Begins
            (f.wordBytes (UInt32.ofNat ts.length)) True := by
          rw [hlength]
          exact .whole _ trivial
        refine ⟨.results ts (by omega), ?_⟩
        simp only [hcount, ↓reduceIte]
        exact ((hword.append hts).cons 0).imp fun _ => trivial
  | get path =>
    dsimp only [answer]
    cases h.resolve s path with
    | ok v =>
      obtain ⟨t, ht⟩ := Term.value_begins hf 0 v
      exact ⟨.value t, ht.imp fun _ => trivial⟩
    | error e =>
      cases hmissing : e.isNotFound with
      | true =>
        obtain ⟨t, ht⟩ := Term.value_begins hf 0 .nil
        simp only [hmissing, ↓reduceIte]
        exact ⟨.value t, ht.imp fun _ => trivial⟩
      | false =>
        refine ⟨.value .nil, ?_⟩
        simp only [hmissing, Bool.false_eq_true, ↓reduceIte]
        exact Emission.begins_fail _ (List.ne_nil_of_length_pos (Term.length_bytes_pos _))
  | set path key value =>
    dsimp only [answer]
    cases (h.assign s path key value).1 with
    | ok u => exact ⟨.assigned, .whole [0] trivial⟩
    | error e => exact failureReply_begins f (.inr rfl) e.code e.message

end Operation

/-- What is asked in a row comes to its end when both parts do. -/
theorem Asking.andThen_eq_done {α β : Type} {r : Asking σ α} {more : List UInt8}
    {k : α → Asking σ β} {b : β} {s u : σ} :
    r.andThen more k s = (.done b, u) ↔ ∃ a t, r s = (.done a, t) ∧ k a t = (.done b, u) := by
  unfold andThen
  cases hrun : r s with
  | mk reading t =>
    cases reading with
    | done a =>
      constructor
      · intro hk
        exact ⟨a, t, rfl, hk⟩
      · rintro ⟨b, u, heq, hk⟩
        cases heq
        exact hk
    | stop e left => simp

namespace Frame

variable {f : Format} {h : Host σ} {F : Frame f} {s t : σ} {op : Operation}

/-- A frame asks for the operation of its command. -/
theorem command_of_asked (hasked : F.asked h s = (.done op, t)) : op.command = F.command := by
  cases F with
  | call path args hlength =>
    obtain ⟨p, u, -, hasked⟩ := Asking.andThen_eq_done.mp hasked
    obtain ⟨vs, v, -, hasked⟩ := Asking.andThen_eq_done.mp hasked
    cases hasked
    rfl
  | get path =>
    obtain ⟨p, -, hp⟩ := Reading.andThen_eq_done.mp (congrArg Prod.fst hasked)
    cases hp
    rfl
  | set path key value =>
    obtain ⟨p, u, -, hasked⟩ := Asking.andThen_eq_done.mp hasked
    obtain ⟨k, v, -, hasked⟩ := Asking.andThen_eq_done.mp hasked
    obtain ⟨w, x, -, hasked⟩ := Asking.andThen_eq_done.mp hasked
    cases hasked
    rfl

/-- What a host in this state makes of the frame has a complete reply. -/
def Answerable (h : Host σ) (s : σ) (F : Frame f) : Prop :=
  ∃ op t, F.asked h s = (.done op, t) ∧ op.Answerable f h t

/-- A frame without a fault gets a complete reply if there is one, and a strict beginning of a reply
otherwise. -/
theorem Sound.reply_cases (hf : f.isSupported = true) (hF : F.Sound) (h : Host σ) (s : σ) :
    ∃ R : Reply f F.command,
      F.Answerable h s ∧ (F.reply h s).bytes = R.bytes ∨
      ¬ F.Answerable h s ∧ ∃ missing, missing ≠ [] ∧ (F.reply h s).bytes ++ missing = R.bytes := by
  obtain ⟨op, t, hasked, -⟩ := hF.completes h s
  obtain ⟨R, hR⟩ := op.answer_begins (h := h) (s := t) hf
  have hreply : (F.reply h s).bytes = Status.ready.toByte :: (op.answer f h t).bytes := by
    rw [bytes_reply, hasked]
  have hanswerable : F.Answerable h s ↔ op.Answerable f h t := by
    constructor
    · rintro ⟨op', t', hasked', hop⟩
      rw [hasked] at hasked'
      cases hasked'
      exact hop
    · intro hop
      exact ⟨op, t, hasked, hop⟩
  rw [← command_of_asked hasked, hreply, hanswerable, ← op.answer_failure_eq_none]
  refine ⟨R, ?_⟩
  cases hfailure : (op.answer f h t).failure with
  | none =>
    left
    exact ⟨rfl, congrArg _ (hR.of_none hfailure).1⟩
  | some e =>
    right
    obtain ⟨missing, hne, hbytes⟩ := hR.of_some hfailure
    exact ⟨Option.some_ne_none e, missing, hne, congrArg _ hbytes⟩

/-- Every frame has at least one byte. -/
theorem length_le_length_allBytes (frames : List (Frame f)) :
    frames.length ≤ (allBytes frames).length := by
  induction frames with
  | nil => exact Nat.le_refl 0
  | cons F frames ih =>
    rw [allBytes_cons, List.length_cons, List.length_cons, List.length_append]
    omega

end Frame

namespace Serving

variable {f : Format}

/-- In the round with this number the loop sends a complete reply to the frame and nothing else, and
then goes on. -/
def RepliesInFull (h : Host σ) (start : Served σ) (n : Nat) (F : Frame f) : Prop :=
  ∃ t t', round? h n start = some t ∧ round? h (n + 1) start = some t' ∧
    ∃ R : Reply f F.command, t'.conn.line.written = t.conn.line.written ++ R.bytes

/-- In the round with this number the loop sends a strict beginning of a reply to the frame, and
then goes on. -/
def FallsShort (h : Host σ) (start : Served σ) (n : Nat) (F : Frame f) : Prop :=
  ∃ t t', round? h n start = some t ∧ round? h (n + 1) start = some t' ∧
    ∃ (R : Reply f F.command) (sent missing : List UInt8), missing ≠ [] ∧
      sent ++ missing = R.bytes ∧ t'.conn.line.written = t.conn.line.written ++ sent

section

variable {h : Host σ} {frames : List (Frame f)} {s : Served σ} {n : Nat} {F : Frame f}

/-- A round that falls short does not answer in full, for a strict beginning of a reply is none. -/
theorem FallsShort.not_repliesInFull (hshort : FallsShort h s n F) : ¬ RepliesInFull h s n F := by
  obtain ⟨t, t', hround, hnext, S, sent, missing, hne, hS, hsent⟩ := hshort
  rintro ⟨u, u', hu, hu', R, hR⟩
  rw [hround] at hu
  rw [hnext] at hu'
  cases hu
  cases hu'
  have hreply : R.bytes = sent := List.append_cancel_left (hR.symm.trans hsent)
  have hbytes : R.bytes ++ missing = S.bytes ++ [] := by
    rw [hreply, hS, List.append_nil]
  exact hne (R.bytes_append_inj S hbytes).2

/-- On a line that takes everything every round sends what there is of the reply to its frame. -/
theorem OnTrack.exists_reply (hs : OnTrack h frames s.host 0 s) (hfree : s.conn.line.intake = .free)
    (hsound : ∀ F ∈ frames, F.Sound) (hF : frames[n]? = some F) :
    ∃ t t', round? h n s = some t ∧ round? h (n + 1) s = some t' ∧
      t.host = (frames.take n).foldl (fun u F => F.effect h u) s.host ∧
      t'.conn.line.written = t.conn.line.written ++ (F.reply h t.host).bytes := by
  have hfaultless : ∀ F ∈ frames, F.reading.left = [] := fun F hF => (hsound F hF).left_eq_nil
  have hstays := (onTrack_iff hs).mp ((onTrack_iff_of_free hs hfree).mpr hfaultless)
  obtain ⟨hn, -⟩ := List.getElem?_eq_some_iff.mp hF
  obtain ⟨t, hround, ht, htfree⟩ := hs.exists_round hfree hstays (Nat.le_of_lt hn)
  have hadvance := advance_of_free h ht.openIn htfree (ht.unread_frame hF)
  obtain ⟨later, hserve, -, -, hwritten⟩ :=
    serveOne_replies h ⟨ht.openIn, rfl, htfree⟩ (ht.unread_frame hF)
  refine ⟨t, (serveOne h t).2, hround, ?_, ht.host_eq, ?_⟩
  · rw [round?, hround]
    exact hadvance
  · rw [hserve]
    exact hwritten

/-- A round answers its frame exactly when the host has a complete reply to it, and otherwise the
round falls short. -/
theorem OnTrack.repliesInFull_iff (hs : OnTrack h frames s.host 0 s)
    (hfree : s.conn.line.intake = .free) (hf : f.isSupported = true)
    (hsound : ∀ F ∈ frames, F.Sound) (hF : frames[n]? = some F) :
    (RepliesInFull h s n F ↔
      F.Answerable h ((frames.take n).foldl (fun u F => F.effect h u) s.host)) ∧
    (¬ RepliesInFull h s n F → FallsShort h s n F) := by
  have hFsound := hsound F (List.mem_of_getElem? hF)
  obtain ⟨t, t', hround, hnext, hhost, hwritten⟩ := hs.exists_reply hfree hsound hF
  rw [← hhost]
  obtain ⟨R, ⟨hanswerable, hR⟩ | ⟨hanswerable, missing, hne, hR⟩⟩ :=
    hFsound.reply_cases hf h t.host
  · have hfull : RepliesInFull h s n F := by
      refine ⟨t, t', hround, hnext, R, ?_⟩
      rw [hwritten, hR]
    exact ⟨⟨fun _ => hanswerable, fun _ => hfull⟩, fun hnot => absurd hfull hnot⟩
  · have hshort : FallsShort h s n F := by
      exact ⟨t, t', hround, hnext, R, _, missing, hne, hR, hwritten⟩
    refine ⟨⟨fun hfull => ?_, fun hanswer => ?_⟩, fun _ => hshort⟩
    · exact absurd hfull hshort.not_repliesInFull
    · exact absurd hanswer hanswerable

/-- A loop that answers every frame has sent as many replies as it has begun rounds. -/
theorem exists_replies (hall : ∀ n F, frames[n]? = some F → RepliesInFull h s n F)
    (hn : n ≤ frames.length) :
    ∃ (t : Served σ) (replies : List (Σ c, Reply f c)), round? h n s = some t ∧
      replies.map Sigma.fst = (frames.take n).map Frame.command ∧
      t.conn.line.written = s.conn.line.written ++ replies.flatMap fun R => R.2.bytes := by
  induction n with
  | zero => exact ⟨s, [], rfl, rfl, (List.append_nil _).symm⟩
  | succ n ih =>
    obtain ⟨t, replies, hround, hcommands, hwritten⟩ := ih (Nat.le_of_succ_le hn)
    have hF : frames[n]? = some frames[n] := List.getElem?_eq_getElem hn
    obtain ⟨u, t', hu, hnext, R, hR⟩ := hall n frames[n] hF
    rw [hround] at hu
    cases hu
    refine ⟨t', replies ++ [⟨_, R⟩], hnext, ?_, ?_⟩
    · rw [List.map_append, hcommands, List.take_add_one, hF, List.map_append]
      rfl
    · rw [hR, hwritten, List.flatMap_append, List.append_assoc]
      simp

end

end Serving

open Serving

/-- After a handshake and frames without faults, on a line that takes everything, the loop comes to
every frame. It sends a complete reply to it, and nothing else, exactly when the host, as the frames
before have left it, has one. To any other frame it sends a strict beginning of a reply, and what it
sends for the next frame comes right behind that. So where the host has complete replies to all the
frames, the output of the server is a sequence of them, one for each frame. -/
theorem serve_repliesInFull_iff (h : Host σ) (s : Served σ) {own f : Format}
    {header : List UInt8} {peer : Header} (frames : List (Frame (own.reconcile peer)))
    (hs : s.conn.Serves own f) (hown : own.isSupported = true)
    (hheader : Header.decode header = .ok peer)
    (hsound : ∀ F ∈ frames, F.Sound)
    (hin : s.conn.line.inbound.Brings
      (Command.connect.toByte :: (header ++ Frame.allBytes frames)) []) :
    (∃ c, Session.acceptHandshake s.conn = (.ok (), c) ∧
      ∀ (n : Nat) (F : Frame (own.reconcile peer)), frames[n]? = some F →
      (RepliesInFull h ⟨c, s.host⟩ n F ↔
        F.Answerable h ((frames.take n).foldl (fun u F => F.effect h u) s.host)) ∧
      (¬ RepliesInFull h ⟨c, s.host⟩ n F → FallsShort h ⟨c, s.host⟩ n F)) ∧
    ((∀ (n : Nat) (F : Frame (own.reconcile peer)), frames[n]? = some F →
        F.Answerable h ((frames.take n).foldl (fun u F => F.effect h u) s.host)) →
      ∃ (t : Served σ) (replies : List (Σ c, Reply (own.reconcile peer) c)),
        serve h s = (.ok (), t) ∧ replies.map Sigma.fst = frames.map Frame.command ∧
        t.conn.line.written = s.conn.line.written ++
          ((Header.ofFormat (own.reconcile peer)).encode ++
            replies.flatMap fun R => R.2.bytes)) := by
  obtain ⟨c, hshake, hc, hrequests, hanswer⟩ := Session.acceptHandshake_serves hs hheader hin
  have hstart : OnTrack h frames s.host 0 ⟨c, s.host⟩ :=
    ⟨hc.openIn, Nat.zero_le _, hrequests, rfl⟩
  have hf := Format.isSupported_reconcile hown (Header.isValid_of_decode hheader)
  refine ⟨⟨c, hshake, fun n F hF => hstart.repliesInFull_iff hc.free hf hsound hF⟩, fun hall => ?_⟩
  have hfull : ∀ n F, frames[n]? = some F → RepliesInFull h ⟨c, s.host⟩ n F := fun n F hF =>
    (hstart.repliesInFull_iff hc.free hf hsound hF).1.mpr (hall n F hF)
  obtain ⟨t, replies, hround, hcommands, hwritten⟩ := exists_replies hfull (Nat.le_refl _)
  have hend := hstart.round_of_faultless hc.free (fun F hF => (hsound F hF).left_eq_nil) hround
  have hserve := serveOne_of_end h hend.1.openIn
    (hend.1.unread_end (List.getElem?_eq_none (Nat.le_refl _)))
  obtain ⟨rounds, hrounds⟩ : ∃ rounds, c.rounds = frames.length + (rounds + 1) := by
    have hsize := hrequests.length_le_size
    have hlength := Frame.length_le_length_allBytes frames
    exact ⟨c.line.inbound.size - frames.length, by rw [Connection.rounds]; omega⟩
  refine ⟨⟨t.conn.withInput ⟨[], []⟩, t.host⟩, replies, ?_, ?_, ?_⟩
  · rw [serve_of_handshake hshake, hrounds, serveRequests_of_round hround,
      serveRequests_of_error hserve]
    rfl
  · rw [hcommands, List.take_length]
  · rw [← List.append_assoc, ← hanswer]
    exact hwritten

/-- A recording server answers the orderly assignment in full. -/
theorem serve_repliesInFull_iff_orderly :
    ∃ (t : Served (List String)) (replies : List (Σ c, Reply .host c)),
      serve recorder (recording (greeting ++ Frame.allBytes [orderly])) = (.ok (), t) ∧
      replies.map Sigma.fst = [.set] ∧
      t.conn.line.written =
        (Header.ofFormat .host).encode ++ replies.flatMap fun R => R.2.bytes := by
  have hsound : ∀ F ∈ [orderly], F.Sound := by
    intro F hF
    rw [List.mem_singleton.mp hF]
    exact ⟨_, rfl⟩
  have hs : (recording (greeting ++ Frame.allBytes [orderly])).conn.Serves .host .host :=
    ⟨⟨rfl, rfl⟩, rfl, rfl⟩
  have hserve := @serve_repliesInFull_iff _ recorder
    (recording (greeting ++ Frame.allBytes [orderly])) .host .host (Header.ofFormat .host).encode
    (.ofFormat .host) [orderly] hs rfl rfl hsound (Inbound.brings_ofBytes _)
  apply hserve.2
  intro n F hF
  cases n with
  | zero =>
    cases hF
    exact ⟨_, _, rfl, trivial⟩
  | succ n => exact nomatch hF

/-- A host that takes assignments and cannot be read. -/
def sealedHost : Host Unit where
  resolve _ _ := .error (.ofMessage "sealed")
  assign s _ _ _ := (.ok (), s)
  invoke s p _ := (.error (.notCallable p.text), s)
  adopt := keepBlob

/-- Reads the table of globals. -/
def inquiry : Frame .host := .get .empty

/-- A sealed server with these frames to read behind the handshake. -/
def sealedServer (frames : List (Frame .host)) : Served Unit :=
  ⟨.ofLine (.ofBytes (greeting ++ Frame.allBytes frames)) .host, ()⟩

/-- To a read that the host refuses nothing but the consent is sent, which is no reply, and right
behind it stands the reply to the next request. -/
theorem serve_partial_reply :
    (serve sealedHost (sealedServer [inquiry, orderly])).2.conn.line.written =
      (Header.ofFormat .host).encode ++ [Status.ready.toByte, Status.ready.toByte, 0] ∧
    ∃ c, Session.acceptHandshake (sealedServer [inquiry, orderly]).conn = (.ok (), c) ∧
      FallsShort sealedHost ⟨c, ()⟩ 0 inquiry ∧ ¬ RepliesInFull sealedHost ⟨c, ()⟩ 0 inquiry ∧
      RepliesInFull sealedHost ⟨c, ()⟩ 1 orderly := by
  have hs : (sealedServer [inquiry, orderly]).conn.Serves .host .host := ⟨⟨rfl, rfl⟩, rfl, rfl⟩
  obtain ⟨c, hshake, hc, hunread, -⟩ := Session.acceptHandshake_serves hs
    (Header.decode_encode (Header.isValid_ofFormat rfl)) (Inbound.brings_ofBytes _)
  have hstart : OnTrack sealedHost [inquiry, orderly] () 0 ⟨c, ()⟩ :=
    ⟨hc.openIn, Nat.zero_le _, hunread, rfl⟩
  have hsound : ∀ F ∈ [inquiry, orderly], F.Sound := by
    simp only [List.mem_cons, List.not_mem_nil, or_false]
    rintro F (rfl | rfl)
    · exact ⟨_, rfl⟩
    · exact ⟨_, rfl⟩
  have hfirst := hstart.repliesInFull_iff hc.free rfl hsound (F := inquiry) (n := 0) rfl
  have hsecond := hstart.repliesInFull_iff hc.free rfl hsound (F := orderly) (n := 1) rfl
  have hunanswered : ¬ RepliesInFull sealedHost ⟨c, ()⟩ 0 inquiry := by
    rw [hfirst.1]
    rintro ⟨op, t, hasked, hop⟩
    cases hasked
    exact nomatch hop
  refine ⟨by decide +kernel, c, hshake, hfirst.2 hunanswered, hunanswered, ?_⟩
  exact hsecond.1.mpr ⟨_, _, rfl, trivial⟩

end RemoteCall
