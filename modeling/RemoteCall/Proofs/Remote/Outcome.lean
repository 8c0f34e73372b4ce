import RemoteCall.Proofs.Client.LifeCycle
import RemoteCall.Proofs.Serve.Answers
import RemoteCall.Proofs.Wire.Refusal

/-!
# Outcomes of an exchange

When a client has an answer of the other side, a result or the failure that the other side met. It
has none of an operation that it refused or could not encode, and none of a reply that was cut
short: what there is of the reply is read without a fault, and the client then fails as its line
does. A reply in full is an answer.
-/

namespace RemoteCall

variable {σ : Type}

/-- The error is the failure of the other side. -/
def Error.IsRemote (e : Error) : Prop := ∃ code message, e = .remote code message

/-- The other side has answered, with a result or with its failure. -/
def Answered {α : Type} (result : Except Error α) : Prop := ∀ e, result = .error e → e.IsRemote

/-- A result is an answer. -/
theorem answered_ok {α : Type} (a : α) : Answered (.ok a : Except Error α) := nofun

/-- A failure of the other side is an answer. -/
theorem answered_remote {α : Type} (code : UInt32) (message : String) :
    Answered (.error (.remote code message) : Except Error α) := by
  rintro e ⟨⟩
  exact ⟨code, message, rfl⟩

/-- Whatever succeeds was answered. -/
theorem answered_of_isOk {α : Type} {result : Except Error α} (h : result.isOk = true) :
    Answered result := by
  cases result with
  | ok a => exact answered_ok a
  | error e => exact nomatch h

/-- What closes a connection is no failure of the other side. -/
theorem Error.Closes.not_isRemote {e : Error} (he : e.Closes) : ¬ e.IsRemote := by
  rintro ⟨code, message, rfl⟩
  rcases he with hfatal | htimeout
  · exact Bool.false_ne_true hfatal
  · exact nomatch htimeout

/-- The failure of the other side leaves the connection open. -/
theorem Answered.not_closes {α : Type} {result : Except Error α} (hresult : Answered result)
    (e : Error) (he : result = .error e) : ¬ e.Closes :=
  fun hcloses => hcloses.not_isRemote (hresult e he)

/-- A breach of the protocol is no failure of the other side. -/
theorem Error.not_isRemote_protocol (v : Violation) : ¬ (Error.protocol v).IsRemote := by
  rintro ⟨code, message, h⟩
  exact nomatch h

/-- A path that is refused is no failure of the other side. -/
theorem Path.Refuses.not_isRemote {p : Path} {limit : Nat} {e : Error} (h : p.Refuses limit e) :
    ¬ e.IsRemote := by
  obtain ⟨before, name, after, -, -, -, rfl⟩ := h
  rintro ⟨code, message, h⟩
  exact nomatch h

/-- What a client sends for an operation is refused, if at all, as a violation. -/
theorem Operation.mild_body (f : Format) (op : Operation) : (op.body f).Mild := by
  cases op with
  | call path args =>
    exact (Emission.mild_string f _).append ((Emission.mild_ofBytes _).append
      (Emission.mild_values f args))
  | get path => exact Emission.mild_string f _
  | set path key value =>
    exact (Emission.mild_string f _).append ((Emission.mild_value f 0 key).append
      (Emission.mild_value f 0 value))

namespace Exchange

open Session Connection

variable {f : Format}

/-- What a client waits for once the operation is sent. -/
def await (settings : ClientSettings) : (op : Operation) → Session (Deed.operate op).Result
  | .call .. => awaitResults settings
  | .get _ => readValue
  | .set .. => awaitStatus

/-- What an accepted operation attempts is its exchange. -/
theorem attempt_operate {settings : ClientSettings} {op : Operation}
    (hnames : op.path.check settings.maxNameLength = .ok ()) (hcount : op.Countable) :
    (Deed.operate op).attempt settings = exchange op (await settings op) := by
  cases op with
  | call path args => exact (Deed.checked_of_ok hnames _).trans (call_eq hcount)
  | get path => exact (Deed.checked_of_ok hnames _).trans (get_eq path)
  | set path key value => exact (Deed.checked_of_ok hnames _).trans (set_eq path key value)

section

variable {c : Connection} {α : Type} {op : Operation} {y : Session α} {e : Error}

/-- Whatever comes, a client gets the server's consent or it has no answer. -/
theorem start_cases (hc : c.OpenIn f) (hfree : c.line.intake = .free) (command : Command) :
    (∃ e later, start command c = (.error e, later) ∧ ¬ e.IsRemote) ∨
    ∃ later, start command c = (.ok (), later) ∧ later.OpenIn f ∧ later.line.intake = .free := by
  have hsend : Emits f (writeByte command.toByte >>= fun _ => flush) (.byte command.toByte) :=
    (emits_send fun _ => .byte command.toByte).bind_flush
  have hassoc : start command = ((writeByte command.toByte >>= fun _ => flush) >>= fun _ =>
      readByte >>= fun answer =>
        if answer = Status.ready.toByte then pure ()
        else if answer = Status.unsupported.toByte then throw (.protocol (.unsupported command))
        else throw (.protocol (.notReady answer))) := by
    rw [bind_assoc]
    rfl
  obtain ⟨middle, hsent, hsame, -⟩ := hsend c hc hfree
  have hrun : (writeByte command.toByte >>= fun _ => flush) c = (.ok (), middle) := hsent
  have hmiddle := hc.of_incoming hsame
  have hmfree : middle.line.intake = .free := (intake_of_incoming hsame).trans hfree
  have hread : readByte middle = _ := receive_run hmiddle.isOpen fun _ => Reader.byte
  rw [hassoc, bind_of_ok hrun]
  cases hbyte : Reader.byte middle.line.inbound with
  | mk result input =>
    rw [hbyte] at hread
    cases result with
    | error e =>
      exact .inl ⟨e, _, bind_of_error hread, (Reader.byte_error_closes hbyte).not_isRemote⟩
    | ok answer =>
      rw [bind_of_ok hread]
      by_cases hready : answer = Status.ready.toByte
      · rw [if_pos hready]
        exact .inr ⟨_, rfl, hmiddle.withInput input, hmfree⟩
      · rw [if_neg hready]
        by_cases hunsupported : answer = Status.unsupported.toByte
        · rw [if_pos hunsupported]
          exact .inl ⟨_, _, rfl, Error.not_isRemote_protocol _⟩
        · rw [if_neg hunsupported]
          exact .inl ⟨_, _, rfl, Error.not_isRemote_protocol _⟩

/-- Whatever comes, there is no answer to an operation that cannot be encoded. -/
theorem exchange_of_refused (hrefused : (op.emission f).failure = some e) (hc : c.OpenIn f)
    (hfree : c.line.intake = .free) :
    ∃ e later, exchange op y c = (.error e, later) ∧ ¬ e.IsRemote := by
  rw [op.emission_eq] at hrefused
  have hbody : (op.body f).failure = some e := hrefused
  rcases start_cases hc hfree op.command with ⟨e', later, hrun, he⟩ | ⟨middle, hrun, hopen, hmfree⟩
  · exact ⟨e', later, bind_of_error hrun, he⟩
  · obtain ⟨later, hsend, -, -⟩ := sendBody_emits op middle hopen hmfree
    rw [Emission.outcome_eq_error.mpr hbody] at hsend
    obtain ⟨v, rfl⟩ := op.mild_body f e hbody
    exact ⟨_, later, (bind_of_ok hrun).trans (bind_of_error hsend), Error.not_isRemote_protocol v⟩

/-- A client that has an answer was not stopped by an overlong name, too many arguments or what
cannot be encoded. -/
theorem encodable_of_answered {settings : ClientSettings} (hc : c.OpenIn f)
    (hfree : c.line.intake = .free)
    (hanswered : Answered ((Deed.operate op).attempt settings c).1) :
    op.path.check settings.maxNameLength = .ok () ∧ op.Encodable f := by
  have hnames : op.path.check settings.maxNameLength = .ok () := by
    rcases op.path.check_cases settings.maxNameLength with ⟨hok, -⟩ | ⟨e, herror, hrefuses⟩
    · exact hok
    · have hrun : ((Deed.operate op).attempt settings c).1 = .error e := by
        cases op <;> exact congrArg Prod.fst (Deed.checked_of_error herror _ c)
      exact absurd (hanswered e hrun) hrefuses.not_isRemote
  have hcount : op.Countable := by
    cases op with
    | call path args =>
      rcases Nat.lt_or_ge args.length UInt32.size with hfew | hmany
      · exact hfew
      · have hrun : (Deed.checked settings path (call settings path args) c).1 =
            .error (.protocol .tooManyArguments) := by
          rw [Deed.checked_of_ok (show path.check settings.maxNameLength = .ok () from hnames),
            call_of_crowded settings hmany]
        exact absurd (hanswered _ hrun) (Error.not_isRemote_protocol _)
    | get path => trivial
    | set path key value => trivial
  refine ⟨hnames, hcount, ?_⟩
  cases hfailure : (op.emission f).failure with
  | none => rfl
  | some e =>
    rw [attempt_operate hnames hcount] at hanswered
    obtain ⟨e', later, hrun, he⟩ :=
      exchange_of_refused (y := await settings op) hfailure hc hfree
    exact absurd (hanswered e' (congrArg Prod.fst hrun)) he

end

section

variable {e : Error}

/-- Values are not read from what is sent of values that are refused. -/
theorem readValues_stalls (hf : f.isSupported = true) {vs : List Value}
    (hrefused : (Emission.values f vs).failure = some e) :
    Stalls f (readValues vs.length) (Emission.values f vs).bytes [] := by
  induction vs with
  | nil => exact nomatch hrefused
  | cons v vs ih =>
    rw [Emission.values] at hrefused ⊢
    rcases Emission.append_failure_eq_some.mp hrefused with hfirst | ⟨hfirst, hrest⟩
    · rw [Emission.append_of_failure hfirst]
      have hv : Stalls f readValue (v.encode f).bytes [] :=
        stalls_receive Reader.value (Reader.breaks_encode hf hfirst)
      exact hv.bind
    · rw [Emission.append_bytes hfirst]
      exact (readValue_does hf hfirst).bind_stalls (ih hrest).bind

/-- A failure is not read from its code and what is sent of a text that is refused. -/
theorem remoteFailure_stalls {α : Type} (code : UInt32) {message : String}
    (hrefused : (Emission.text f message).failure = some e) :
    Stalls f (remoteFailure : Session α) (f.wordBytes code ++ (Emission.text f message).bytes)
      [] := by
  have hcode : Does f readWord (f.wordBytes code) (.ok code) [] :=
    does_receive Reader.word (Reader.follows_word code)
  have htext : Stalls f readString (Emission.text f message).bytes [] := by
    rw [Emission.text, Emission.bytes_string_of_refused hrefused]
    exact stalls_receive Reader.string Reader.breaks_string
  exact hcode.bind_stalls htext.bind

/-- Results of which one cannot be encoded leave the client waiting, whatever was sent before it. -/
theorem awaitResults_stalls_results (hf : f.isSupported = true) (settings : ClientSettings)
    {results : List Value} (hcount : results.length < UInt32.size)
    (hrefused : (Emission.values f results).failure = some e) :
    Stalls f (awaitResults settings) (resultsReply f results).bytes [] := by
  have hword : Does f readWord (f.wordBytes (UInt32.ofNat results.length))
      (.ok (UInt32.ofNat results.length)) [] :=
    does_receive Reader.word (Reader.follows_word _)
  have hsize : (UInt32.ofNat results.length).toNat = results.length := by
    rw [UInt32.toNat_ofNat']
    exact Nat.mod_eq_of_lt hcount
  refine (does_setTimeout _).bind_stalls ((readByte_does 0).observing.bind_stalls ?_)
  refine (does_setTimeout _).bind_stalls ((does_pure 0).bind_stalls (hword.bind_stalls ?_))
  rw [hsize]
  exact readValues_stalls hf hrefused

/-- A failure whose text is too long leaves a call waiting behind its code. -/
theorem awaitResults_stalls_failure (settings : ClientSettings) (code : UInt32) {message : String}
    (hrefused : (Emission.text f message).failure = some e) :
    Stalls f (awaitResults settings) (failureReply f code message).bytes [] := by
  refine (does_setTimeout _).bind_stalls ((readByte_does 1).observing.bind_stalls ?_)
  refine (does_setTimeout _).bind_stalls ((does_pure 1).bind_stalls ?_)
  exact remoteFailure_stalls code hrefused

/-- A failure whose text is too long leaves an assignment waiting behind its code. -/
theorem awaitStatus_stalls_failure (code : UInt32) {message : String}
    (hrefused : (Emission.text f message).failure = some e) :
    Stalls f awaitStatus (failureReply f code message).bytes [] :=
  (readByte_does 1).bind_stalls (remoteFailure_stalls code hrefused)

end

section

variable {settings : ClientSettings} {op asked : Operation} {h : Host σ} {s : σ}

/-- A client waits for the first byte of the reply. -/
theorem await_stalls (settings : ClientSettings) (op : Operation) :
    Stalls f (await settings op) [] [] := by
  cases op with
  | call path args => exact awaitResults_stalls settings
  | get path => exact readValue_stalls
  | set path key value => exact awaitStatus_stalls

/-- A reply in full is an answer. -/
theorem await_does_answer (hf : f.isSupported = true) (settings : ClientSettings)
    (hcommand : asked.command = op.command) (hwhole : (asked.answer f h s).failure = none) :
    ∃ result, Does f (await settings op) (asked.answer f h s).bytes result [] ∧
      Answered result := by
  have hanswerable := (asked.answer_failure_eq_none).mp hwhole
  cases op with
  | call path args =>
    cases asked with
    | call path args =>
      dsimp only [Operation.answer, Operation.Answerable] at hanswerable ⊢
      cases hinvoke : (h.invoke s path args).1 with
      | ok results =>
        rw [hinvoke] at hanswerable
        dsimp only at hanswerable ⊢
        obtain ⟨hcount, hresults⟩ := hanswerable
        rw [if_neg (Nat.not_le_of_lt hcount)]
        exact ⟨_, awaitResults_does_results hf settings hcount hresults, answered_ok _⟩
      | error failure =>
        rw [hinvoke] at hanswerable
        exact ⟨_, awaitResults_does_failure settings failure.code hanswerable,
          answered_remote _ _⟩
    | get path => exact nomatch hcommand
    | set path key value => exact nomatch hcommand
  | get path =>
    cases asked with
    | get path =>
      dsimp only [Operation.answer, Operation.Answerable] at hanswerable ⊢
      cases hresolve : h.resolve s path with
      | ok v =>
        rw [hresolve] at hanswerable
        exact ⟨_, readValue_does hf hanswerable, answered_ok _⟩
      | error failure =>
        rw [hresolve] at hanswerable
        dsimp only at hanswerable ⊢
        rw [if_pos hanswerable]
        exact ⟨_, readValue_does (v := .nil) hf rfl, answered_ok _⟩
    | call path args => exact nomatch hcommand
    | set path key value => exact nomatch hcommand
  | set path key value =>
    cases asked with
    | set path key value =>
      dsimp only [Operation.answer, Operation.Answerable] at hanswerable ⊢
      cases hassign : (h.assign s path key value).1 with
      | ok u => exact ⟨_, awaitStatus_does_done, answered_ok _⟩
      | error failure =>
        rw [hassign] at hanswerable
        exact ⟨_, awaitStatus_does_failure failure.code hanswerable, answered_remote _ _⟩
    | call path args => exact nomatch hcommand
    | get path => exact nomatch hcommand

/-- A reply that is cut short is none: the client fails as its line does. -/
theorem await_stalls_answer (hf : f.isSupported = true) (settings : ClientSettings) {e : Error}
    (hcommand : asked.command = op.command) (hcut : (asked.answer f h s).failure = some e) :
    Stalls f (await settings op) (asked.answer f h s).bytes [] := by
  cases op with
  | call path args =>
    cases asked with
    | call path args =>
      dsimp only [Operation.answer] at hcut ⊢
      cases hinvoke : (h.invoke s path args).1 with
      | ok results =>
        rw [hinvoke] at hcut
        dsimp only at hcut ⊢
        by_cases hcount : UInt32.size ≤ results.length
        · rw [if_pos hcount]
          exact awaitResults_stalls settings
        · rw [if_neg hcount] at hcut ⊢
          exact awaitResults_stalls_results hf settings (Nat.lt_of_not_le hcount) hcut
      | error failure =>
        rw [hinvoke] at hcut
        exact awaitResults_stalls_failure settings failure.code hcut
    | get path => exact nomatch hcommand
    | set path key value => exact nomatch hcommand
  | get path =>
    cases asked with
    | get path =>
      dsimp only [Operation.answer] at hcut ⊢
      cases hresolve : h.resolve s path with
      | ok v =>
        rw [hresolve] at hcut
        exact stalls_receive Reader.value (Reader.breaks_encode hf hcut)
      | error failure =>
        rw [hresolve] at hcut
        dsimp only at hcut ⊢
        cases hmissing : failure.isNotFound with
        | true =>
          rw [hmissing] at hcut
          exact nomatch hcut
        | false => exact readValue_stalls
    | call path args => exact nomatch hcommand
    | set path key value => exact nomatch hcommand
  | set path key value =>
    cases asked with
    | set path key value =>
      dsimp only [Operation.answer] at hcut ⊢
      cases hassign : (h.assign s path key value).1 with
      | ok u =>
        rw [hassign] at hcut
        exact nomatch hcut
      | error failure =>
        rw [hassign] at hcut
        exact awaitStatus_stalls_failure failure.code hcut
    | call path args => exact nomatch hcommand
    | get path => exact nomatch hcommand

end

end Exchange

end RemoteCall
