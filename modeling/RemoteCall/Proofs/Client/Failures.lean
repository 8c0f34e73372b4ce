import RemoteCall.Proofs.Client.LifeCycle
import RemoteCall.Proofs.Wire.Closed
import RemoteCall.Proofs.Wire.Severity

/-!
# What an exchange fails with

Only the check of a path speaks of long names. The line, the decoder and the encoder have failures
of their own, and so do the replies that a client does not understand; so an operation whose path
passes the check never fails with a long name, whoever is told of the failure.
-/

namespace RemoteCall

/-- The error refuses a name for its length. -/
def Error.IsLongName (e : Error) : Prop := ∃ name limit, e = .longName name limit

/-- A breach of the protocol is about no name. -/
theorem Error.not_isLongName_protocol (v : Violation) : ¬ (protocol v).IsLongName := by
  rintro ⟨name, limit, h⟩
  exact nomatch h

/-- A closed connection is about no name. -/
theorem Error.not_isLongName_closed : ¬ closed.IsLongName := by
  rintro ⟨name, limit, h⟩
  cases h

/-- A failure of the line speaks of no name. -/
theorem Error.not_isLongName_ofIo (e : IoError) : ¬ (ofIo e).IsLongName := by
  rintro ⟨name, limit, h⟩
  unfold ofIo at h
  split at h <;> exact nomatch h

section

variable {σ α β : Type} {P : Error → Prop} {x : ExceptT Error (StateM σ) α}
  {k : α → ExceptT Error (StateM σ) β}

/-- Whatever the computation fails with has the property. -/
def FailsWithin (P : Error → Prop) (x : ExceptT Error (StateM σ) α) : Prop :=
  ∀ s e, (x s).1 = .error e → P e

/-- What succeeds does not fail. -/
theorem failsWithin_pure (a : α) : FailsWithin P (pure a : ExceptT Error (StateM σ) α) :=
  fun _ _ h => nomatch h

/-- What fails with an error of the kind fails within it. -/
theorem failsWithin_throw {e : Error} (he : P e) :
    FailsWithin P (throw e : ExceptT Error (StateM σ) α) := by
  intro s e' h
  cases h
  exact he

/-- Steps that fail within a kind do so one after the other. -/
theorem FailsWithin.bind (hx : FailsWithin P x) (hk : ∀ a, FailsWithin P (k a)) :
    FailsWithin P (x >>= k) := by
  intro s e h
  cases hrun : x s with
  | mk result later =>
    cases result with
    | ok a =>
      rw [bind_of_ok hrun] at h
      exact hk a later e h
    | error e' =>
      rw [bind_of_error hrun] at h
      cases h
      exact hx s e (congrArg Prod.fst hrun)

/-- What is observed is no failure, but it can be raised again once something else is done. -/
theorem FailsWithin.observing_rethrow {y : ExceptT Error (StateM σ) Unit} (hx : FailsWithin P x)
    (hy : FailsWithin P y) (hk : ∀ a, FailsWithin P (k a)) :
    FailsWithin P (observing x >>= fun outcome => y >>= fun _ =>
      MonadExcept.ofExcept outcome >>= k) := by
  intro s e h
  rw [bind_of_ok observing_run] at h
  cases hoy : y (x s).2 with
  | mk result later =>
    cases result with
    | error e' =>
      rw [bind_of_error hoy] at h
      cases h
      exact hy _ _ (congrArg Prod.fst hoy)
    | ok u =>
      rw [bind_of_ok hoy] at h
      cases hrun : (x s).1 with
      | ok a =>
        rw [hrun] at h
        exact hk a later e h
      | error e' =>
        rw [hrun] at h
        cases h
        exact hx s e hrun

end

namespace Reader

variable {α : Type}

/-- What does not come is no matter of names. -/
theorem take_fails (n : Nat) : FailsWithin (¬ ·.IsLongName) (take n) := by
  rintro input e h ⟨name, limit, rfl⟩
  have hcloses : (Error.longName name limit).Closes := Inbound.gather_error_closes h
  rcases hcloses with hfatal | htimeout
  · exact Bool.false_ne_true hfatal
  · exact nomatch htimeout

/-- The decoder knows nothing of names. -/
theorem closed_fails : Closed fun {_} r => FailsWithin (¬ ·.IsLongName) r where
  result := failsWithin_pure
  ending := failsWithin_throw nofun
  refusal v := failsWithin_throw (Error.not_isLongName_protocol v)
  bytes := take_fails
  seq := FailsWithin.bind
  tagged := by
    intro β k hk
    refine ((take_fails 1).bind fun bytes => failsWithin_pure _).bind fun b => ?_
    rcases hk b with hb | ⟨-, hb⟩
    · exact hb
    · rw [hb]
      exact failsWithin_throw nofun

/-- No name is too long for a reader of values. -/
theorem value_fails (f : Format) : FailsWithin (¬ ·.IsLongName) (value f) := by
  intro input e h
  refine (?_ : FailsWithin (¬ ·.IsLongName) _) input e h
  refine FailsWithin.bind (fun _ _ h => nomatch h) fun size => ?_
  refine (closed_fails.item f _ 0).bind fun found => ?_
  split
  · exact failsWithin_pure _
  · exact failsWithin_throw (Error.not_isLongName_protocol _)

end Reader

namespace Session

variable {α : Type}

/-- Asking for an open connection first adds no failure about names. -/
theorem requireOpen_bind_fails {y : Session α} (hy : FailsWithin (¬ ·.IsLongName) y) :
    FailsWithin (¬ ·.IsLongName) (requireOpen >>= fun _ => y) := by
  intro c e h
  cases hopen : c.isOpen with
  | true =>
    rw [bind_of_ok (requireOpen_run hopen)] at h
    exact hy c e h
  | false =>
    rw [bind_of_error (requireOpen_run_closed hopen)] at h
    cases h
    exact Error.not_isLongName_closed

/-- Receiving fails as its reader does, or because the connection is closed. -/
theorem receive_fails {reader : Format → Reader α}
    (h : ∀ f, FailsWithin (¬ ·.IsLongName) (reader f)) :
    FailsWithin (¬ ·.IsLongName) (receive reader) :=
  requireOpen_bind_fails fun c e he => h c.format c.line.inbound e he

/-- Sending fails as the line does, or as an encoder does. -/
theorem send_fails {emission : Format → Emission} (h : ∀ f, (emission f).Mild) :
    FailsWithin (¬ ·.IsLongName) (send emission) := by
  intro c e he
  cases hopen : c.isOpen with
  | false =>
    rw [send, bind_of_error (requireOpen_run_closed hopen)] at he
    cases he
    exact Error.not_isLongName_closed
  | true =>
    rw [send_run hopen] at he
    rcases c.line.write_cases (emission c.format).bytes with ⟨hok, -⟩ | ⟨failure, hfails⟩
    · rw [hok] at he
      cases hfailure : (emission c.format).failure with
      | none =>
        rw [hfailure] at he
        cases he
      | some e' =>
        obtain ⟨v, rfl⟩ := h c.format e' hfailure
        rw [hfailure] at he
        cases he
        exact Error.not_isLongName_protocol v
    · rw [hfails] at he
      cases he
      exact Error.not_isLongName_ofIo failure

/-- Handing on what was sent fails with no long name. -/
theorem flush_fails : FailsWithin (¬ ·.IsLongName) flush := by
  refine requireOpen_bind_fails fun c e h => ?_
  rcases c.line.flush_cases with ⟨hok, -⟩ | ⟨failure, hfails⟩
  · exact nomatch hok.symm.trans h
  · cases hfails.symm.trans h
    exact Error.not_isLongName_ofIo failure

/-- Setting the time limit fails with no long name. -/
theorem setTimeout_fails (timeout : Option Duration) :
    FailsWithin (¬ ·.IsLongName) (setTimeout timeout) :=
  requireOpen_bind_fails fun _ _ h => nomatch h

end Session

namespace Exchange

open Session

/-- Reading a byte fails with no long name. -/
theorem readByte_fails : FailsWithin (¬ ·.IsLongName) readByte :=
  receive_fails fun _ => Reader.closed_fails.byte

/-- Starting a request fails with no long name. -/
theorem start_fails (command : Command) : FailsWithin (¬ ·.IsLongName) (start command) := by
  refine (send_fails fun _ => Emission.mild_ofBytes _).bind fun _ => flush_fails.bind fun _ => ?_
  refine readByte_fails.bind fun answer => ?_
  split
  · exact failsWithin_pure ()
  · split <;> exact failsWithin_throw (Error.not_isLongName_protocol _)

/-- Sending values fails with no long name. -/
theorem sendValues_fails (vs : List Value) : FailsWithin (¬ ·.IsLongName) (sendValues vs) := by
  induction vs with
  | nil => exact failsWithin_pure ()
  | cons v vs ih => exact (send_fails fun f => Emission.mild_value f 0 v).bind fun _ => ih

/-- Reading results fails with no long name. -/
theorem readValues_fails (count : Nat) : FailsWithin (¬ ·.IsLongName) (readValues count) := by
  induction count with
  | zero => exact failsWithin_pure []
  | succ count ih =>
    exact (receive_fails Reader.value_fails).bind fun v => ih.bind fun vs => failsWithin_pure _

/-- The failure of the other side is its own. -/
theorem remoteFailure_fails {α : Type} :
    FailsWithin (¬ ·.IsLongName) (remoteFailure : Session α) :=
  (receive_fails Reader.closed_fails.word).bind fun _ =>
    (receive_fails Reader.closed_fails.string).bind fun _ => failsWithin_throw nofun

/-- A call whose path was checked before fails with no long name. -/
theorem call_fails (settings : ClientSettings) (p : Path) (args : List Value) :
    FailsWithin (¬ ·.IsLongName) (call settings p args) := by
  unfold call
  split
  · exact failsWithin_throw (Error.not_isLongName_protocol _)
  · refine (start_fails .call).bind fun _ => ?_
    refine (send_fails fun f => Emission.mild_string f _).bind fun _ => ?_
    refine (send_fails fun f => Emission.mild_ofBytes _).bind fun _ => ?_
    refine (sendValues_fails args).bind fun _ => flush_fails.bind fun _ => ?_
    refine (setTimeout_fails _).bind fun _ => ?_
    refine readByte_fails.observing_rethrow (setTimeout_fails _) fun status => ?_
    split
    · exact (receive_fails Reader.closed_fails.word).bind fun count => readValues_fails _
    · split
      · exact remoteFailure_fails
      · exact failsWithin_throw (Error.not_isLongName_protocol _)

/-- Reading a value at a path that was checked before fails with no long name. -/
theorem get_fails (p : Path) : FailsWithin (¬ ·.IsLongName) (get p) :=
  (start_fails .get).bind fun _ => (send_fails fun f => Emission.mild_string f _).bind fun _ =>
    flush_fails.bind fun _ => receive_fails Reader.value_fails

/-- Assigning at a path that was checked before fails with no long name. -/
theorem set_fails (p : Path) (key value : Value) :
    FailsWithin (¬ ·.IsLongName) (set p key value) := by
  refine (start_fails .set).bind fun _ => ?_
  refine (send_fails fun f => Emission.mild_string f _).bind fun _ => ?_
  refine (send_fails fun f => Emission.mild_value f 0 key).bind fun _ => ?_
  refine (send_fails fun f => Emission.mild_value f 0 value).bind fun _ => ?_
  refine flush_fails.bind fun _ => ?_
  refine readByte_fails.bind fun status => ?_
  split
  · exact failsWithin_pure ()
  · split
    · exact remoteFailure_fails
    · exact failsWithin_throw (Error.not_isLongName_protocol _)

end Exchange

namespace Handle

variable {h : Handle}

/-- Whoever is told of an outcome, the caller or the handler, is told of its error and nothing else.
-/
theorem finish_tells {α : Type} [Inhabited α] {P : Error → Prop} {outcome : Except Error α}
    (houtcome : ∀ e, outcome = .error e → P e) :
    (∀ e, (finish outcome h).1 = .error e → P e) ∧
      ∀ e ∈ (finish outcome h).2.reported, e ∈ h.reported ∨ P e := by
  cases outcome with
  | ok a => exact ⟨nofun, fun e he => .inl he⟩
  | error e =>
    have he : P e := houtcome e rfl
    cases hhandler : h.handler with
    | some handler =>
      obtain ⟨hresult, hreports⟩ := finish_error_of_some (α := α) e hhandler
      rw [hresult, reported, hreports, List.map_append]
      refine ⟨nofun, fun told htold => ?_⟩
      rcases List.mem_append.mp htold with hold | hnew
      · exact .inl hold
      · exact .inr (List.mem_singleton.mp hnew ▸ he)
    | none =>
      obtain ⟨hresult, hreports⟩ := finish_error_of_none (α := α) e hhandler
      rw [hresult, reported, hreports]
      refine ⟨fun told htold => ?_, fun told htold => .inl htold⟩
      cases htold
      exact he

/-- An operation whose path passes the check fails with no long name, and none is reported. -/
theorem operate_fails (op : Operation) (hpath : op.path.check h.settings.maxNameLength = .ok ()) :
    (∀ e, ((Deed.operate op).run h).1 = .error e → ¬ e.IsLongName) ∧
      ∀ e ∈ ((Deed.operate op).run h).2.reported, e ∈ h.reported ∨ ¬ e.IsLongName := by
  have hattempt : FailsWithin (¬ ·.IsLongName) ((Deed.operate op).attempt h.settings) := by
    cases op with
    | call path args =>
      have hcall : (Deed.operate (.call path args)).attempt h.settings =
          Exchange.call h.settings path args := Deed.checked_of_ok hpath _
      rw [hcall]
      exact Exchange.call_fails h.settings path args
    | get path =>
      have hget : (Deed.operate (.get path)).attempt h.settings = Exchange.get path :=
        Deed.checked_of_ok hpath _
      rw [hget]
      exact Exchange.get_fails path
    | set path key value =>
      have hset : (Deed.operate (.set path key value)).attempt h.settings =
          Exchange.set path key value := Deed.checked_of_ok hpath _
      rw [hset]
      exact Exchange.set_fails path key value
  rw [Deed.run_eq]
  exact finish_tells (hattempt h.conn)

end Handle

end RemoteCall
