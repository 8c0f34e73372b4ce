import RemoteCall.Proofs.Client.Boundary
import RemoteCall.Proofs.Line.Link
import RemoteCall.Proofs.Remote.Server

/-!
# Joined handles

A handle and a server that serves one request after another, joined by pipes that lose nothing. What
the server has sent so far is what it has sent when it has served as far as the bytes go that have
reached it, and an operation of the client is run against that answer until it wants no more of it.
An exchange needs two answers, the consent and the reply; it ends as the reply says and leaves both
sides ready for the next one.
-/

namespace RemoteCall

variable {σ α : Type}

/-- A handle and a server at the two ends of a line. -/
structure Joined (σ : Type) where
  client : Handle
  server : Served σ

/-- The server with these bytes arriving. -/
def Served.hearing (s : Served σ) (bytes : List UInt8) : Served σ :=
  let arrivals : List Arrival := if bytes.isEmpty then [] else [.chunk bytes]
  { s with conn := s.conn.withInput (s.conn.line.inbound.extend arrivals) }

namespace Joined

/-- The server after a request in these bytes, or as far into it as the bytes go. -/
def served (h : Host σ) (s : Served σ) (bytes : List UInt8) : Served σ :=
  (serveOne h (s.hearing bytes)).2

/-- What the server sends in answer to these bytes. -/
def answer (h : Host σ) (s : Served σ) (bytes : List UInt8) : List UInt8 :=
  (served h s bytes).conn.line.written.drop s.conn.line.written.length

/-- The client's operation as a step on its line. -/
def step (act : Calling α) (client : Handle) (l : Line) : (Except Error α × Handle) × Line :=
  let (result, client) := act { client with conn := { client.conn with line := l } }
  ((result, client), client.conn.line)

/-- Runs an operation of the client, with at most so many rounds of answers. -/
def run (h : Host σ) (rounds : Nat) (act : Calling α) (j : Joined σ) :
    Except Error α × Joined σ :=
  let before := j.client.conn.line.written.length
  let ((result, client), link) :=
    Link.perform (fun sent => answer h j.server (sent.drop before)) (step act j.client) rounds
      { line := j.client.conn.line }
  (result,
    { client := { client with conn := { client.conn with line := link.line } }
      server := served h j.server (link.line.written.drop before) })

/-- Both sides are between two requests, on lines that take everything and with nothing to read. -/
structure Ready (f : Format) (j : Joined σ) : Prop where
  supported : f.isSupported = true
  client_openIn : j.client.conn.OpenIn f
  server_openIn : j.server.conn.OpenIn f
  client_free : j.client.conn.line.intake = .free
  server_free : j.server.conn.line.intake = .free
  client_drained : j.client.conn.line.inbound = ⟨[], []⟩
  server_drained : j.server.conn.line.inbound = ⟨[], []⟩
  unwatched : j.client.watched = false

/-- The operation comes to this result and leaves the application behind the server in this state,
with both sides ready for the next operation. -/
def Ends (j : Joined σ) (f : Format) (h : Host σ) (rounds : Nat) (act : Calling α)
    (result : Except Error α) (host : σ) : Prop :=
  ∃ later, run h rounds act j = (result, later) ∧ later.Ready f ∧ later.server.host = host ∧
    later.client.settings = j.client.settings

section

open Session Serving

variable {f : Format} {h : Host σ} {j : Joined σ} {F : Frame f}

namespace Ready

/-- A server that is ready has before it what it hears, and nothing else. -/
theorem hears (hj : j.Ready f) (bytes : List UInt8) :
    (j.server.hearing bytes).conn.line.inbound.Brings (bytes ++ []) [] := by
  rw [List.append_nil]
  cases bytes with
  | nil =>
    change (j.server.conn.line.inbound.extend []).Brings [] []
    rw [hj.server_drained]
    exact Inbound.brings_empty.extend []
  | cons b bs =>
    change (j.server.conn.line.inbound.extend [.chunk (b :: bs)]).Brings (b :: bs) []
    rw [hj.server_drained]
    exact Inbound.brings_empty.extend_chunk (List.cons_ne_nil b bs)

/-- The command byte alone is answered with the server's consent. -/
theorem answer_command (hj : j.Ready f) (h : Host σ) (F : Frame f) :
    answer h j.server [F.command.toByte] = [Status.ready.toByte] := by
  have hwritten := serveOne_stalls (s := j.server.hearing [F.command.toByte]) h F
    (hj.server_openIn.withInput _) hj.server_free (hj.hears _) .ending
  unfold answer served
  rw [hwritten]
  exact List.drop_left

/-- A frame is answered with the server's consent and the reply, and the server is ready again. -/
theorem served_frame {op : Operation} {host : σ} {reply : List UInt8} (hj : j.Ready f)
    (hasked : F.asked h j.server.host = (.done op, j.server.host))
    (hanswers : Answers f (respond h op) j.server.host host reply) :
    ∃ later, served h j.server F.bytes = ⟨later, host⟩ ∧ later.OpenIn f ∧
      later.line.intake = .free ∧ later.line.inbound = ⟨[], []⟩ ∧
      later.line.written = j.server.conn.line.written ++ (Status.ready.toByte :: reply) := by
  obtain ⟨later, hserve, hopen, hfree, hdrained, hwritten⟩ :=
    serveOne_answers (s := j.server.hearing F.bytes) hasked hanswers
      (hj.server_openIn.withInput _) hj.server_free (hj.hears _)
  exact ⟨later, congrArg Prod.snd hserve, hopen, hfree, hdrained.eq_of_nil, hwritten⟩

end Ready

/-- What a run comes to is what its last step comes to on its link. -/
theorem run_of_perform {act : Calling α} {rounds : Nat} {result : Except Error α} {client : Handle}
    {link : Link}
    (hperform : Link.perform
        (fun sent => answer h j.server (sent.drop j.client.conn.line.written.length))
        (step act j.client) rounds { line := j.client.conn.line } = ((result, client), link)) :
    run h rounds act j =
      (result,
        { client := { client with conn := { client.conn with line := link.line } }
          server := served h j.server
            (link.line.written.drop j.client.conn.line.written.length) }) := by
  unfold run
  dsimp only
  rw [hperform]

/-- A result that does not close the connection is handed to the caller as it is. -/
theorem finish_of_open [Inhabited α] {result : Except Error α} {client : Handle}
    (hclient : client.watched = false) (hresult : ∀ e, result = .error e → ¬ e.Closes) :
    Handle.finish result client = (result, client) := by
  cases result with
  | ok a => rfl
  | error e =>
    have hopen : ¬ (e.isFatal || decide (e = .timeout)) = true := by
      rw [Bool.or_eq_true, decide_eq_true_eq]
      exact hresult e rfl
    unfold Handle.finish
    dsimp only
    rw [if_neg hopen, Handle.tell_of_none e (Handle.watched_eq_false_iff.mp hclient)]

/-- The operation is this exchange on every line of the client. -/
def Performs [Inhabited α] (client : Handle) (act : Calling α) (x : Session α) : Prop :=
  ∀ conn, act { client with conn := conn } =
    Handle.perform (fun _ => x) { client with conn := conn }

section

variable [Inhabited α] {act : Calling α} {x : Session α} {input : Inbound}
  {arrived output : List UInt8} {result : Except Error α}

/-- A step of an operation is its exchange on the line that it is given. -/
theorem Performs.step_of_run (hact : Performs j.client act x) {later : Connection}
    (hrun : x (j.client.conn.withInput input) = (result, later)) :
    step act j.client { j.client.conn.line with inbound := input } =
      (Handle.finish result { j.client with conn := later },
        (Handle.finish result { j.client with conn := later }).2.conn.line) := by
  have hperform : act { j.client with conn := j.client.conn.withInput input } =
      Handle.finish result { j.client with conn := later } := by
    rw [hact, Handle.perform]
    simp only [hrun]
  rw [← hperform]
  rfl

/-- An exchange that stalls has sent this much. -/
theorem Ready.step_stalls (hj : j.Ready f) (hact : Performs j.client act x)
    (hx : Stalls f x arrived output) (hin : input.Brings arrived [Link.silence]) :
    (step act j.client { j.client.conn.line with inbound := input }).2.written =
      j.client.conn.line.written ++ output := by
  obtain ⟨later, hrun, -, hwritten⟩ :=
    hx (j.client.conn.withInput input) [Link.silence] .timeout [] (hj.client_openIn.withInput input)
      hj.client_free hin Link.meets_silence
  rw [hact.step_of_run hrun]
  exact (Handle.written_finish _).trans hwritten

/-- An exchange with its whole answer before it comes to its result. -/
theorem Ready.step_does (hj : j.Ready f) (hact : Performs j.client act x)
    (hx : Does f x arrived result output) (hresult : ∀ e, result = .error e → ¬ e.Closes)
    (hin : input.Brings arrived [Link.silence]) :
    ∃ later : Connection,
      step act j.client { j.client.conn.line with inbound := input } =
        ((result, { j.client with conn := later }), later.line) ∧
      later.OpenIn f ∧ later.line.intake = .free ∧
      later.line.inbound.Brings [] [Link.silence] ∧
      later.line.written = j.client.conn.line.written ++ output := by
  rw [← List.append_nil arrived] at hin
  obtain ⟨later, hrun, hlater⟩ :=
    hx (j.client.conn.withInput input) [] [Link.silence] (hj.client_openIn.withInput input)
      hj.client_free hin
  have hfinish : Handle.finish result { j.client with conn := later } =
      (result, { j.client with conn := later }) := finish_of_open hj.unwatched hresult
  refine ⟨later, ?_, hlater⟩
  rw [hact.step_of_run hrun, hfinish]

/-- An exchange is run until it has the whole answer of the server before it. -/
theorem Ready.run_exchange {op : Operation} {y : Session α} {reply : List UInt8} (hj : j.Ready f)
    (hact : Performs j.client act (Exchange.exchange op y)) (hop : op.Encodable f)
    (hstalls : Stalls f y [] [])
    (hconsent : answer h j.server [op.command.toByte] = [Status.ready.toByte])
    (hanswer : answer h j.server (op.emission f).bytes = Status.ready.toByte :: reply)
    (hcomplete : ∀ input : Inbound, input.Brings (Status.ready.toByte :: reply) [Link.silence] →
      (step act j.client { j.client.conn.line with inbound := input }).2.written =
        j.client.conn.line.written ++ (op.emission f).bytes)
    {rounds : Nat} (hrounds : 2 ≤ rounds) :
    ∃ input : Inbound, input.Brings (Status.ready.toByte :: reply) [Link.silence] ∧
      ∀ result client (line : Line),
        step act j.client { j.client.conn.line with inbound := input } = ((result, client), line) →
        run h rounds act j =
          (result,
            { client := { client with conn := { client.conn with
                line := { line with inbound := Link.withoutSilence line.inbound } } }
              server := served h j.server
                (line.written.drop j.client.conn.line.written.length) }) := by
  obtain ⟨rounds, rfl⟩ := Nat.exists_eq_add_of_le' hrounds
  let start := j.client.conn.line
  let server := fun sent : List UInt8 => answer h j.server (sent.drop start.written.length)
  have hserver : ∀ sent, server (start.written ++ sent) = answer h j.server sent := by
    intro sent
    simp only [server, List.drop_left]
  -- Nothing, the consent, and the whole answer have arrived in turn.
  have hnothing : Link.Carries { line := start } start [] := Link.carries_start hj.client_drained
  have hready := hnothing.deliver (List.cons_ne_nil Status.ready.toByte [])
  have hfirst := hnothing.perform_of_news (List.cons_ne_nil Status.ready.toByte [])
    (fun _ hin => hj.step_stalls hact (Exchange.exchange_stalls_at_start op) hin)
    ((hserver _).trans hconsent) (rounds + 1)
  by_cases hreply : reply = []
  · subst hreply
    obtain ⟨input, hin, hsecond⟩ :=
      hready.perform_of_silence hcomplete ((hserver _).trans hanswer) (rounds + 1)
    refine ⟨input, hin, fun result client line hstep => ?_⟩
    rw [hstep] at hsecond
    exact run_of_perform (hfirst.trans hsecond)
  · have hwhole := hready.deliver hreply
    have hsecond := hready.perform_of_news hreply
      (fun _ hin => hj.step_stalls hact (Exchange.exchange_stalls_at_reply hop hstalls) hin)
      ((hserver _).trans hanswer) rounds
    obtain ⟨input, hin, hthird⟩ :=
      hwhole.perform_of_silence hcomplete ((hserver _).trans hanswer) rounds
    refine ⟨input, hin, fun result client line hstep => ?_⟩
    rw [hstep] at hthird
    exact run_of_perform (hfirst.trans (hsecond.trans hthird))

/-- An exchange ends as the reply makes it end that the server has sent for it. -/
theorem Ready.ends_of_served {op : Operation} {y : Session α} {host : σ} {reply : List UInt8}
    {conn : Connection} {rounds : Nat} (hj : j.Ready f)
    (hact : Performs j.client act (Exchange.exchange op y)) (hop : op.Encodable f)
    (hF : F.bytes = (op.emission f).bytes)
    (hserved : served h j.server F.bytes = ⟨conn, host⟩) (hopen : conn.OpenIn f)
    (hfree : conn.line.intake = .free) (hdrained : conn.line.inbound = ⟨[], []⟩)
    (hwritten : conn.line.written = j.server.conn.line.written ++ (Status.ready.toByte :: reply))
    (hstalls : Stalls f y [] []) (hdoes : Does f y reply result [])
    (hresult : ∀ e, result = .error e → ¬ e.Closes) (hrounds : 2 ≤ rounds) :
    j.Ends f h rounds act result host := by
  have hcommand : F.command.toByte = op.command.toByte := by
    rw [op.emission_eq] at hF
    exact (List.cons.inj hF).1
  have hconsent : answer h j.server [op.command.toByte] = [Status.ready.toByte] := by
    rw [← hcommand]
    exact hj.answer_command h F
  have hanswer : answer h j.server (op.emission f).bytes = Status.ready.toByte :: reply := by
    rw [← hF, answer, hserved, hwritten, List.drop_left]
  have hlast := Exchange.exchange_does hop hdoes
  have hcomplete : ∀ input : Inbound, input.Brings (Status.ready.toByte :: reply) [Link.silence] →
      (step act j.client { j.client.conn.line with inbound := input }).2.written =
        j.client.conn.line.written ++ (op.emission f).bytes := by
    intro input hin
    obtain ⟨later, hstep, -, -, -, hsent⟩ := hj.step_does hact hlast hresult hin
    rw [hstep]
    exact hsent
  obtain ⟨input, hin, hrun⟩ :=
    hj.run_exchange hact hop hstalls hconsent hanswer hcomplete hrounds
  obtain ⟨later, hstep, hlopen, hlfree, hlin, hsent⟩ := hj.step_does hact hlast hresult hin
  have hends := hrun _ _ _ hstep
  rw [Link.withoutSilence_of_brings hlin, hsent, List.drop_left, ← hF, hserved] at hends
  refine ⟨_, hends, ?_, rfl, rfl⟩
  exact ⟨hj.supported, hlopen.withInput _, hopen, hlfree, hfree, rfl, hdrained, hj.unwatched⟩

/-- An exchange of a joined handle ends as the reply of the server says. -/
theorem Ready.ends_exchange {op : Operation} {y : Session α} {host : σ} {reply : List UInt8}
    {rounds : Nat} (hj : j.Ready f) (hkeep : h.adopt = keepBlob)
    (hact : Performs j.client act (Exchange.exchange op y)) (hop : op.Encodable f)
    (hanswers : Answers f (respond h (op.received f)) j.server.host host reply)
    (hstalls : Stalls f y [] []) (hdoes : Does f y reply result [])
    (hresult : ∀ e, result = .error e → ¬ e.Closes) (hrounds : 2 ≤ rounds) :
    j.Ends f h rounds act result host := by
  obtain ⟨F, hbegins⟩ := Frame.operation_begins hj.supported op hop.1
  obtain ⟨hframe, hreading⟩ := hbegins.of_none hop.2
  have hasked : F.asked h j.server.host = (.done (op.received f), j.server.host) := by
    rw [F.asked_of_keep hkeep, hreading]
    rfl
  obtain ⟨conn, hserved, hopen, hfree, hdrained, hwritten⟩ := hj.served_frame hasked hanswers
  exact hj.ends_of_served hact hop hframe.symm hserved hopen hfree hdrained hwritten hstalls hdoes
    hresult hrounds

end

end

end Joined

end RemoteCall
