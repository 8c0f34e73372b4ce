import RemoteCall.Proofs.Handshake
import RemoteCall.Proofs.Remote.Joined

/-!
# Joining by a handshake

A fresh client and a fresh server that exchange their headers. The server answers the greeting with
the format that it settles on, and both then have that format in effect and nothing left to read,
whatever their own formats are.
-/

namespace RemoteCall

variable {σ : Type}

namespace Joined

/-- A fresh handle's handshake as a step on its line. -/
def greetStep (settings : ClientSettings) (l : Line) : Except Error Handle × Line :=
  let (result, conn) := Handle.ofLine l settings
  (result, conn.line)

/-- A fresh server after a handshake in these bytes, or as far into it as the bytes go. -/
def greeted (own : Format) (bytes : List UInt8) : Connection :=
  (Session.acceptHandshake (.ofLine (.ofBytes bytes) own)).2

/-- Joins a fresh handle to a fresh server of this format. -/
def greet (settings : ClientSettings) (own : Format) (rounds : Nat) (host : σ) :
    Except Error (Joined σ) :=
  let (result, link) :=
    Link.perform (fun sent => (greeted own sent).line.written) (greetStep settings) rounds
      Link.fresh
  match result with
  | .error e => .error e
  | .ok client =>
    .ok
      { client := { client with conn := { client.conn with line := link.line } }
        server := ⟨greeted own link.line.written, host⟩ }

section

open Session

variable {settings : ClientSettings} {own : Format} {input : Inbound}

/-- A fresh connection under its time limit, on which only input has arrived. -/
def opening (settings : ClientSettings) (input : Inbound) : Connection :=
  .ofLine ({ Link.fresh.line with inbound := input }.setTimeout settings.communicationTimeout)
    settings.format

/-- A fresh connection under its time limit is open in its own format. -/
theorem opening_openIn (settings : ClientSettings) (input : Inbound) :
    (opening settings input).OpenIn settings.format := ⟨rfl, rfl⟩

/-- A fresh handle is what the negotiation under its time limit makes of the line. -/
theorem greetStep_run (settings : ClientSettings) (input : Inbound) :
    greetStep settings { Link.fresh.line with inbound := input } =
      match negotiateClient (opening settings input) with
      | (.ok (), later) => (.ok { conn := later, settings }, later.line)
      | (.error e, later) => (.error e, later.line.close) := by
  have hset : setTimeout settings.communicationTimeout
      (.ofLine { Link.fresh.line with inbound := input } settings.format) =
        (.ok (), opening settings input) := setTimeout_run rfl _
  unfold greetStep Handle.ofLine
  rw [Exchange.connect, bind_of_ok hset]
  cases hrun : negotiateClient (opening settings input) with
  | mk result later =>
    have hobserved : observing negotiateClient (opening settings input) =
        (.ok result, later) := by
      rw [observing_run, hrun]
    rw [bind_of_ok hobserved]
    cases result <;> rfl

/-- A fresh handle that gets no answer has sent its greeting. -/
theorem greetStep_stalls (hin : input.Brings [] [Link.silence]) :
    (greetStep settings { Link.fresh.line with inbound := input }).2.written =
      greetingBytes settings.format := by
  obtain ⟨later, hrun, hwritten⟩ :=
    negotiateClient_stalls (opening_openIn settings input) rfl hin Link.meets_silence
  rw [greetStep_run, hrun]
  exact hwritten

/-- A fresh handle that is answered has the format of the answer in effect. -/
theorem greetStep_does {agreed : Format} (hagreed : agreed.isSupported = true)
    (hin : input.Brings (Header.ofFormat agreed).encode [Link.silence]) :
    ∃ later : Connection,
      greetStep settings { Link.fresh.line with inbound := input } =
        (.ok { conn := later, settings }, later.line) ∧
      later.OpenIn agreed ∧ later.line.intake = .free ∧
      later.line.inbound.Brings [] [Link.silence] ∧
      later.line.written = greetingBytes settings.format := by
  rw [← List.append_nil (Header.ofFormat agreed).encode] at hin
  obtain ⟨later, hrun, hlater⟩ :=
    negotiateClient_does hagreed (opening_openIn settings input) rfl hin
  refine ⟨later, ?_, hlater⟩
  rw [greetStep_run, hrun]

/-- A fresh server answers a greeting with the format that it settles on, and has it in effect. -/
theorem greeted_greetingBytes (own : Format) {peer : Format} (hpeer : peer.isSupported = true) :
    (greeted own (greetingBytes peer)).OpenIn (own.reconcile (Header.ofFormat peer)) ∧
      (greeted own (greetingBytes peer)).line.intake = .free ∧
      (greeted own (greetingBytes peer)).line.inbound = ⟨[], []⟩ ∧
      (greeted own (greetingBytes peer)).line.written =
        (Header.ofFormat (own.reconcile (Header.ofFormat peer))).encode := by
  have hin : (Inbound.ofBytes (greetingBytes peer)).Brings
      (Command.connect.toByte :: ((Header.ofFormat peer).encode ++ [])) [] := by
    rw [List.append_nil]
    exact Inbound.brings_ofBytes _
  obtain ⟨rest, hrest, hrun⟩ :=
    acceptHandshake_run (c := .ofLine (.ofBytes (greetingBytes peer)) own) rfl
      (Header.decode_encode (Header.isValid_ofFormat hpeer)) hin
  obtain ⟨later, hsettle, hopen, hfree, hdrained, hwritten⟩ :=
    settle_does (c := (Connection.ofLine (.ofBytes (greetingBytes peer)) own).withInput rest)
      (f := own) (own.reconcile (Header.ofFormat peer)) ⟨rfl, rfl⟩ rfl hrest
  have hgreeted : greeted own (greetingBytes peer) = later :=
    congrArg Prod.snd (hrun.trans hsettle)
  rw [hgreeted]
  exact ⟨hopen, hfree, hdrained.eq_of_nil, hwritten⟩

/-- A handshake between supported formats joins a handle to its server, with both ready for a first
operation in the format that the server settles on. -/
theorem ready_of_greet (hpeer : settings.format.isSupported = true)
    (hown : own.isSupported = true) {rounds : Nat} (hrounds : 1 ≤ rounds) (host : σ) :
    ∃ j, greet settings own rounds host = .ok j ∧
      j.Ready (own.reconcile (Header.ofFormat settings.format)) ∧ j.server.host = host ∧
      j.client.settings = settings := by
  obtain ⟨rounds, rfl⟩ := Nat.exists_eq_add_of_le' hrounds
  have hvalid := Header.isValid_ofFormat hpeer
  have hagreed := Format.isSupported_reconcile hown hvalid
  have hserver := greeted_greetingBytes own hpeer
  generalize own.reconcile (Header.ofFormat settings.format) = agreed at hagreed hserver ⊢
  obtain ⟨hopen, hfree, hdrained, hwritten⟩ := hserver
  let server := fun sent : List UInt8 => (greeted own sent).line.written
  have hanswer : server (greetingBytes settings.format) = (Header.ofFormat agreed).encode :=
    hwritten
  have hcomplete : ∀ input : Inbound,
      input.Brings (Header.ofFormat agreed).encode [Link.silence] →
      (greetStep settings { Link.fresh.line with inbound := input }).2.written =
        greetingBytes settings.format := by
    intro input hin
    obtain ⟨later, hstep, -, -, -, hsent⟩ := greetStep_does hagreed hin
    rw [hstep]
    exact hsent
  have hfresh : Link.fresh.line.inbound = ⟨[], []⟩ := rfl
  obtain ⟨input, hin, hends⟩ := Link.perform_of_answer hfresh (List.cons_ne_nil _ _)
    (fun _ hin => greetStep_stalls hin) hcomplete hanswer rounds
  obtain ⟨later, hstep, hlopen, hlfree, hlin, hsent⟩ := greetStep_does hagreed hin
  obtain ⟨link, hperform, hline⟩ := hends _ _ hstep hlin
  have hgreet : greet settings own (rounds + 1) host =
      .ok { client := { conn := later.withInput ⟨[], []⟩, settings }
            server := ⟨greeted own later.line.written, host⟩ } := by
    have hrun : Link.perform server (greetStep settings) (rounds + 1) Link.fresh = _ := hperform
    unfold greet
    rw [hrun]
    dsimp only
    rw [hline]
    rfl
  rw [hsent] at hgreet
  refine ⟨_, hgreet, ?_, rfl, rfl⟩
  exact ⟨hagreed, hlopen.withInput _, hopen, hlfree, hfree, rfl, hdrained, rfl⟩

end

end Joined

end RemoteCall
