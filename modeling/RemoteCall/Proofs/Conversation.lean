import RemoteCall.Proofs.Connection

/-!
# Conversations

What a session reads and sends on a line that takes everything. With the whole answer before it the
session comes to its result; with only a beginning of the answer it fails as the line does, and by
then it has sent what it sends before that point. Both are said of any connection and composed along
the session, so an exchange is described once and then used for every state of the line.
-/

namespace RemoteCall

namespace Emission

variable {a b : Emission}

/-- After an emission that succeeds the bytes of the next one follow. -/
theorem append_bytes (ha : a.failure = none) : (a ++ b).bytes = a.bytes ++ b.bytes := by
  obtain ⟨bytes, failure⟩ := a
  cases ha
  rfl

/-- Emissions in a row succeed when both do. -/
theorem append_failure_eq_none :
    (a ++ b).failure = none ↔ a.failure = none ∧ b.failure = none := by
  obtain ⟨bytes, failure⟩ := a
  cases failure with
  | none => exact ⟨fun h => ⟨rfl, h⟩, And.right⟩
  | some e => exact ⟨fun h => absurd h nofun, fun h => absurd h.1 nofun⟩

/-- How sending ends on a line that takes everything. -/
def outcome (a : Emission) : Except Error Unit :=
  match a.failure with
  | none => .ok ()
  | some e => .error e

/-- Sending ends well exactly when the emission does not fail. -/
theorem outcome_eq_ok : a.outcome = .ok () ↔ a.failure = none := by
  unfold outcome
  cases a.failure <;> simp

/-- Sending fails with the failure of the emission. -/
theorem outcome_eq_error {e : Error} : a.outcome = .error e ↔ a.failure = some e := by
  unfold outcome
  cases a.failure <;> simp

/-- What follows a success decides how sending ends. -/
theorem append_outcome (ha : a.failure = none) : (a ++ b).outcome = b.outcome := by
  obtain ⟨bytes, failure⟩ := a
  cases ha
  rfl

/-- Nothing follows a failure. -/
theorem append_of_failure {e : Error} (ha : a.failure = some e) : a ++ b = a := by
  obtain ⟨bytes, failure⟩ := a
  cases ha
  rfl

/-- Sending nothing more changes nothing. -/
theorem append_ofBytes_nil (a : Emission) : a ++ ofBytes [] = a := by
  obtain ⟨bytes, failure⟩ := a
  cases failure with
  | some e => rfl
  | none => exact congrArg (fun bytes => (⟨bytes, none⟩ : Emission)) (List.append_nil bytes)

end Emission

namespace Session

open Connection

variable {α β : Type} {f : Format} {x : Session α} {k : α → Session β}
  {input more output sent : List UInt8} {a : α} {result : Except Error β}

/-- The session reads this, comes to this result and sends this. -/
def Does (f : Format) (x : Session α) (input : List UInt8) (result : Except Error α)
    (output : List UInt8) : Prop :=
  ∀ c rest after, c.OpenIn f → c.line.intake = .free → c.line.inbound.Brings (input ++ rest) after →
    ∃ later, x c = (result, later) ∧ later.OpenIn f ∧ later.line.intake = .free ∧
      later.line.inbound.Brings rest after ∧ later.line.written = c.line.written ++ output

/-- With nothing but this to read the session fails as the line does, and it has sent this. -/
def Stalls (f : Format) (x : Session α) (input output : List UInt8) : Prop :=
  ∀ c after e left, c.OpenIn f → c.line.intake = .free → c.line.inbound.Brings input after →
    Inbound.Meets after e left →
      ∃ later, x c = (.error e, later) ∧ later.isOpen = true ∧
        later.line.written = c.line.written ++ output

/-- Giving a value reads and sends nothing. -/
theorem does_pure (a : α) : Does f (pure a) [] (.ok a) [] :=
  fun c _ _ hc hfree hin => ⟨c, rfl, hc, hfree, hin, (List.append_nil _).symm⟩

/-- Failing reads and sends nothing. -/
theorem does_throw (e : Error) : Does f (throw e : Session α) [] (.error e) [] :=
  fun c _ _ hc hfree hin => ⟨c, rfl, hc, hfree, hin, (List.append_nil _).symm⟩

/-- A session goes on after what its first part has read and sent. -/
theorem Does.bind (hx : Does f x input (.ok a) output) (hk : Does f (k a) more result sent) :
    Does f (x >>= k) (input ++ more) result (output ++ sent) := by
  intro c rest after hc hfree hin
  rw [List.append_assoc] at hin
  obtain ⟨middle, hrun, hmiddle, hmfree, hnext, hwritten⟩ := hx c (more ++ rest) after hc hfree hin
  obtain ⟨later, hlater, hopen, hlfree, hrest, hend⟩ := hk middle rest after hmiddle hmfree hnext
  refine ⟨later, (bind_of_ok hrun).trans hlater, hopen, hlfree, hrest, ?_⟩
  rw [hend, hwritten, List.append_assoc]

/-- What is sent before anything is read. -/
theorem Does.bind_sent (hx : Does f x [] (.ok a) output) (hk : Does f (k a) input result sent) :
    Does f (x >>= k) input result (output ++ sent) := hx.bind hk

/-- What neither reads nor sends is passed over. -/
theorem Does.bind_quiet (hx : Does f x [] (.ok a) []) (hk : Does f (k a) input result sent) :
    Does f (x >>= k) input result sent := hx.bind hk

/-- What is made of the result alone reads nothing more. -/
theorem Does.bind_result (hx : Does f x input (.ok a) output) (hk : Does f (k a) [] result []) :
    Does f (x >>= k) input result output := by
  have h := hx.bind hk
  rwa [List.append_nil, List.append_nil] at h

/-- What is sent before an answer is read. -/
theorem Does.bind_answer (hx : Does f x [] (.ok a) output) (hk : Does f (k a) input result []) :
    Does f (x >>= k) input result output := by
  have h := hx.bind_sent hk
  rwa [List.append_nil] at h

/-- A session stalls where its continuation does. -/
theorem Does.bind_stalls (hx : Does f x input (.ok a) output) (hk : Stalls f (k a) more sent) :
    Stalls f (x >>= k) (input ++ more) (output ++ sent) := by
  intro c after e left hc hfree hin hmeets
  obtain ⟨middle, hrun, hmiddle, hmfree, hnext, hwritten⟩ := hx c more after hc hfree hin
  obtain ⟨later, hlater, hopen, hend⟩ := hk middle after e left hmiddle hmfree hnext hmeets
  refine ⟨later, (bind_of_ok hrun).trans hlater, hopen, ?_⟩
  rw [hend, hwritten, List.append_assoc]

/-- A session that only waits after its first part has sent what that part sends. -/
theorem Does.bind_waits (hx : Does f x [] (.ok a) output) (hk : Stalls f (k a) input []) :
    Stalls f (x >>= k) input output := by
  have h : Stalls f (x >>= k) input (output ++ []) := hx.bind_stalls hk
  rwa [List.append_nil output] at h

/-- Nothing is done after a part that stalls. -/
theorem Stalls.bind (hx : Stalls f x input output) : Stalls f (x >>= k) input output := by
  intro c after e left hc hfree hin hmeets
  obtain ⟨later, hrun, hlater⟩ := hx c after e left hc hfree hin hmeets
  exact ⟨later, bind_of_error hrun, hlater⟩

/-- Receiving does what its reader does, and sends nothing. -/
theorem does_receive (reader : Format → Reader α) (h : (reader f).Follows input (.done a)) :
    Does f (receive reader) input (.ok a) [] := by
  intro c rest after hc hfree hin
  rw [← hc.format_eq] at h
  obtain ⟨later, hrun, hlater⟩ := receive_follows reader hc.isOpen h hin
  exact ⟨c.withInput later, hrun, hc.withInput later, hfree, hlater, (List.append_nil _).symm⟩

/-- Receiving stalls where its reader breaks off. -/
theorem stalls_receive (reader : Format → Reader α) (h : (reader f).Breaks input) :
    Stalls f (receive reader) input [] := by
  intro c after e left hc _ hin hmeets
  refine ⟨c.withInput ⟨[], left⟩, ?_, hc.isOpen, (List.append_nil _).symm⟩
  rw [receive_run hc.isOpen, hc.format_eq, h c.line.inbound after left e hin hmeets]

/-- On a line that takes everything the session sends this emission, whether or not it fails, and
does nothing else. -/
def Emits (f : Format) (x : Session Unit) (e : Emission) : Prop :=
  ∀ c, c.OpenIn f → c.line.intake = .free →
    ∃ later, x c = (e.outcome, later) ∧ later.incoming = c.incoming ∧
      later.line.written = c.line.written ++ e.bytes

section

variable {y z : Session Unit} {b e : Emission}

/-- Doing nothing sends nothing. -/
theorem emits_pure : Emits f (pure ()) (.ofBytes []) :=
  fun c _ _ => ⟨c, rfl, rfl, (List.append_nil _).symm⟩

/-- Failing is an emission of nothing but the failure. -/
theorem emits_throw (failure : Error) : Emits f (throw failure) (.fail failure) :=
  fun c _ _ => ⟨c, rfl, rfl, (List.append_nil _).symm⟩

/-- Sending emits its emission in the format in effect. -/
theorem emits_send (emission : Format → Emission) : Emits f (send emission) (emission f) := by
  intro c hc hfree
  refine ⟨{ c with line := c.line.record (emission f).bytes }, ?_, ?_, Line.written_record _ _⟩
  · rw [send_run hc.isOpen, hc.format_eq, Line.write_of_free hfree]
    unfold sendResult Emission.outcome
    cases (emission f).failure <;> rfl
  · simp [incoming, Connection.isOpen]

/-- Flushing emits nothing. -/
theorem emits_flush : Emits f flush (.ofBytes []) := by
  intro c hc hfree
  refine ⟨{ c with line := { c.line with outbound := c.line.outbound ++ [.flush] } }, ?_, rfl, ?_⟩
  · rw [flush_run hc.isOpen, Line.flush_of_free hfree]
    rfl
  · simp [Line.written, Sent.payload, Emission.ofBytes]

/-- Sessions that send one after another, unless the first one fails. -/
theorem Emits.bind (hy : Emits f y e) (hz : Emits f z b) :
    Emits f (y >>= fun _ => z) (e ++ b) := by
  intro c hc hfree
  obtain ⟨middle, hrun, hsame, hwritten⟩ := hy c hc hfree
  cases hfailure : e.failure with
  | some failure =>
    refine ⟨middle, ?_, hsame, ?_⟩
    · rw [Emission.append_of_failure hfailure]
      rw [Emission.outcome_eq_error.mpr hfailure] at hrun ⊢
      exact bind_of_error hrun
    · rw [Emission.append_of_failure hfailure]
      exact hwritten
  | none =>
    rw [Emission.outcome_eq_ok.mpr hfailure] at hrun
    obtain ⟨later, hlater, hkept, hsent⟩ :=
      hz middle (hc.of_incoming hsame) ((intake_of_incoming hsame).trans hfree)
    refine ⟨later, ?_, hkept.trans hsame, ?_⟩
    · rw [Emission.append_outcome hfailure, bind_of_ok hrun, hlater]
    · rw [hsent, hwritten, Emission.append_bytes hfailure, List.append_assoc]

/-- Pushing adds nothing to what is sent. -/
theorem Emits.bind_flush (hy : Emits f y e) : Emits f (y >>= fun _ => flush) e := by
  have h := hy.bind emits_flush
  rwa [Emission.append_ofBytes_nil] at h

/-- An emission that does not fail is sent, and the input stays as it was. -/
theorem Emits.does (hy : Emits f y e) (h : e.failure = none) : Does f y [] (.ok ()) e.bytes := by
  intro c rest after hc hfree hin
  obtain ⟨later, hrun, hsame, hwritten⟩ := hy c hc hfree
  rw [Emission.outcome_eq_ok.mpr h] at hrun
  refine ⟨later, hrun, hc.of_incoming hsame, (intake_of_incoming hsame).trans hfree, ?_, hwritten⟩
  rw [inbound_of_incoming hsame]
  exact hin

end

/-- An emission that does not fail is sent. -/
theorem does_send (emission : Format → Emission) (h : (emission f).failure = none) :
    Does f (send emission) [] (.ok ()) (emission f).bytes :=
  (emits_send emission).does h

/-- Flushing reads and sends nothing. -/
theorem does_flush : Does f flush [] (.ok ()) [] := emits_flush.does rfl

/-- Setting a time limit reads and sends nothing. -/
theorem does_setTimeout (timeout : Option Duration) :
    Does f (setTimeout timeout) [] (.ok ()) [] := by
  intro c rest after hc hfree hin
  exact ⟨_, setTimeout_run hc.isOpen timeout, ⟨hc.isOpen, hc.format_eq⟩, hfree, hin,
    (List.append_nil _).symm⟩

/-- An observed success is a result. -/
theorem Does.observing (hx : Does f x input (.ok a) output) :
    Does f (observing x) input (.ok (.ok a)) output := by
  intro c rest after hc hfree hin
  obtain ⟨later, hrun, h⟩ := hx c rest after hc hfree hin
  refine ⟨later, ?_, h⟩
  rw [observing_run, hrun]

/-- A failure that is observed, while the time limit is put back, and then raised again. -/
theorem Stalls.observing_rethrow (hx : Stalls f x input output) (timeout : Option Duration) :
    Stalls f (observing x >>= fun outcome => setTimeout timeout >>= fun _ =>
      MonadExcept.ofExcept outcome >>= k) input output := by
  intro c after e left hc hfree hin hmeets
  obtain ⟨middle, hrun, hopen, hwritten⟩ := hx c after e left hc hfree hin hmeets
  have hobserved : observing x c = (.ok (.error e), middle) := by
    rw [observing_run, hrun]
  refine ⟨{ middle with line := middle.line.setTimeout timeout }, ?_, hopen, hwritten⟩
  rw [bind_of_ok hobserved, bind_of_ok (setTimeout_run hopen timeout)]
  exact bind_of_error (ofExcept_error_run e)

end Session

end RemoteCall
