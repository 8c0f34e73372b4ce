import RemoteCall.Proofs.Serve.Stream

/-!
# Dialogues with one host

What several peers and one host say to each other when the host takes one request at a time, from
whichever peer has its turn. The order of the turns is given from outside. Each turn takes the next
request of its peer, the host answers in the state in which it is then, and the answer goes to that
peer. So whatever the order, the requests of all peers come to the host as one stream, in which each
peer's own requests keep their order.
-/

namespace RemoteCall

variable {σ : Type} {own : Format}

/-- The requests, each with the format that it is in. -/
def Requests.toList : {f : Format} → Requests own f → List ((f : Format) × Request f)
  | _, .nil => []
  | f, .cons first rest => ⟨f, first⟩ :: rest.toList

/-- One peer in dialogue with a server that has this format of its own. -/
structure Dialogue (own : Format) where
  /-- The format in force. -/
  format : Format
  /-- What the peer has still to ask. -/
  left : Requests own format
  /-- What the peer was sent. -/
  sent : List UInt8
  /-- The last reply was cut short. -/
  broken : Bool := false

/-- Nothing more is to come of the dialogue. -/
def Dialogue.IsOver (d : Dialogue own) : Prop := d.left.toList = [] ∨ d.broken = true

/-- A request that was carried out for a peer, and the reply that it got. -/
structure Turn where
  number : Nat
  format : Format
  request : Request format
  reply : Emission

namespace Turn

variable {h : Host σ}

/-- What a peer has asked, in order. -/
def askedBy (number : Nat) (record : List Turn) : List ((f : Format) × Request f) :=
  (record.filter fun turn => turn.number = number).map fun turn => ⟨turn.format, turn.request⟩

/-- What a peer was sent for it. -/
def sentTo (number : Nat) (record : List Turn) : List UInt8 :=
  (record.filter fun turn => turn.number = number).flatMap fun turn => turn.reply.bytes

/-- The host goes from one state to the other by these requests in this order, and each reply is the
one that it gives at its place. -/
def Lead (own : Format) (h : Host σ) : σ → List Turn → σ → Prop
  | s, [], t => t = s
  | s, turn :: rest, t =>
    turn.reply = turn.request.reply own h s ∧ Lead own h (turn.request.effect h s) rest t

/-- Requests in a row lead on from where the first of them lead. -/
theorem Lead.append {s t u : σ} {record more : List Turn} (hst : Lead own h s record t)
    (htu : Lead own h t more u) : Lead own h s (record ++ more) u := by
  induction record generalizing s with
  | nil =>
    cases hst
    exact htu
  | cons turn record ih => exact ⟨hst.1, ih hst.2⟩

section

variable {number other : Nat} {record : List Turn} {f : Format} {r : Request f} {reply : Emission}

/-- A turn adds its request to what its peer has asked. -/
theorem askedBy_concat_self :
    askedBy number (record ++ [⟨number, f, r, reply⟩]) = askedBy number record ++ [⟨f, r⟩] := by
  simp [askedBy]

/-- A turn adds nothing to what any other peer has asked. -/
theorem askedBy_concat_of_ne (hne : number ≠ other) :
    askedBy other (record ++ [⟨number, f, r, reply⟩]) = askedBy other record := by
  simp [askedBy, hne]

/-- A turn adds its reply to what its peer was sent. -/
theorem sentTo_concat_self :
    sentTo number (record ++ [⟨number, f, r, reply⟩]) = sentTo number record ++ reply.bytes := by
  simp [sentTo]

/-- A turn adds nothing to what any other peer was sent. -/
theorem sentTo_concat_of_ne (hne : number ≠ other) :
    sentTo other (record ++ [⟨number, f, r, reply⟩]) = sentTo other record := by
  simp [sentTo, hne]

end

end Turn

/-- All the peers, by number, with the one host that they talk to. -/
structure Talks (own : Format) (σ : Type) where
  dialogues : Nat → Dialogue own
  host : σ
  /-- The turns so far, in order. -/
  record : List Turn := []

namespace Talks

variable {h : Host σ} {t : Talks own σ} {number : Nat}

/-- A peer has its turn: its next request is carried out and answered. One that has nothing to ask
lets its turn pass. -/
def turn (h : Host σ) (t : Talks own σ) (number : Nat) : Talks own σ :=
  match t.dialogues number with
  | ⟨_, .nil, _, _⟩ => t
  | ⟨f, .cons first rest, sent, _⟩ =>
    let reply := first.reply own h t.host
    { dialogues := fun other =>
        if other = number then ⟨first.next own, rest, sent ++ reply.bytes, reply.failure.isSome⟩
        else t.dialogues other
      host := first.effect h t.host
      record := t.record ++ [⟨number, f, first, reply⟩] }

/-- The peers have their turns in this order. -/
def play (h : Host σ) (numbers : List Nat) (t : Talks own σ) : Talks own σ :=
  numbers.foldl (turn h) t

/-- Who has nothing to ask lets the turn pass. -/
theorem turn_of_nil {f : Format} {sent : List UInt8} {broken : Bool}
    (hd : t.dialogues number = ⟨f, .nil, sent, broken⟩) : t.turn h number = t := by
  rw [turn, hd]

section

variable {f : Format} {first : Request f} {rest : Requests own (first.next own)} {sent : List UInt8}
  {broken : Bool}

/-- A turn takes the next request of its peer and adds the reply. -/
theorem dialogues_turn_self (hd : t.dialogues number = ⟨f, .cons first rest, sent, broken⟩) :
    (t.turn h number).dialogues number =
      ⟨first.next own, rest, sent ++ (first.reply own h t.host).bytes,
        (first.reply own h t.host).failure.isSome⟩ := by
  rw [turn, hd]
  exact if_pos rfl

/-- A turn has the effect of its request on the host. -/
theorem host_turn (hd : t.dialogues number = ⟨f, .cons first rest, sent, broken⟩) :
    (t.turn h number).host = first.effect h t.host := by
  rw [turn, hd]

/-- A turn goes on record with its request and its reply. -/
theorem record_turn (hd : t.dialogues number = ⟨f, .cons first rest, sent, broken⟩) :
    (t.turn h number).record = t.record ++ [⟨number, f, first, first.reply own h t.host⟩] := by
  rw [turn, hd]

end

/-- A turn is no concern of the other peers. -/
theorem dialogues_turn_of_ne {other : Nat} (hne : other ≠ number) :
    (t.turn h number).dialogues other = t.dialogues other := by
  cases hd : t.dialogues number with
  | mk f left sent broken =>
    cases left with
    | nil => rw [turn_of_nil hd]
    | cons first rest =>
      rw [turn, hd]
      exact if_neg hne

/-- A peer that has no turn goes on where it was. -/
theorem dialogues_play_of_not_mem {numbers : List Nat} (hnumber : number ∉ numbers) :
    (t.play h numbers).dialogues number = t.dialogues number := by
  induction numbers generalizing t with
  | nil => rfl
  | cons first numbers ih =>
    obtain ⟨hne, hnumbers⟩ := not_or.mp (mt List.mem_cons.mpr hnumber)
    exact (ih hnumbers).trans (dialogues_turn_of_ne hne)

/-- Turns in a row are taken from where the first of them lead. -/
theorem play_append (numbers more : List Nat) :
    t.play h (numbers ++ more) = (t.play h numbers).play h more :=
  List.foldl_append

/-- What the talks have come to since these dialogues began with a host in this state: the turns on
record have led the host, every peer has asked a beginning of what it had to ask, in its own order,
and it was sent the replies to that and nothing else. -/
structure Since (h : Host σ) (dialogues : Nat → Dialogue own) (init : σ) (t : Talks own σ) :
    Prop where
  lead : Turn.Lead own h init t.record t.host
  asked : ∀ number,
    Turn.askedBy number t.record ++ (t.dialogues number).left.toList =
      (dialogues number).left.toList
  sent : ∀ number,
    (t.dialogues number).sent = (dialogues number).sent ++ Turn.sentTo number t.record

variable {dialogues : Nat → Dialogue own} {init : σ}

/-- At the beginning nothing has been said. -/
theorem since_start (h : Host σ) (dialogues : Nat → Dialogue own) (init : σ) :
    Since h dialogues init ⟨dialogues, init, []⟩ :=
  ⟨rfl, fun _ => rfl, fun _ => (List.append_nil _).symm⟩

/-- A turn is a step of the talks, whoever has it. -/
theorem Since.turn (ht : Since h dialogues init t) (number : Nat) :
    Since h dialogues init (t.turn h number) := by
  cases hd : t.dialogues number with
  | mk f left sent broken =>
    cases left with
    | nil =>
      rw [turn_of_nil hd]
      exact ht
    | cons first rest =>
      have hrecord := record_turn (h := h) hd
      refine ⟨?_, fun other => ?_, fun other => ?_⟩
      · rw [hrecord, host_turn hd]
        exact ht.lead.append ⟨rfl, rfl⟩
      · rw [hrecord, ← ht.asked other]
        by_cases hother : other = number
        · subst hother
          rw [Turn.askedBy_concat_self, dialogues_turn_self hd, hd, List.append_assoc]
          rfl
        · rw [Turn.askedBy_concat_of_ne (Ne.symm hother), dialogues_turn_of_ne hother]
      · rw [hrecord]
        have hbefore := ht.sent other
        by_cases hother : other = number
        · subst hother
          rw [hd] at hbefore
          rw [Turn.sentTo_concat_self, dialogues_turn_self hd, ← List.append_assoc, ← hbefore]
        · rw [Turn.sentTo_concat_of_ne (Ne.symm hother), dialogues_turn_of_ne hother, hbefore]

/-- Whatever the order of the turns. -/
theorem Since.play (ht : Since h dialogues init t) (numbers : List Nat) :
    Since h dialogues init (t.play h numbers) := by
  induction numbers generalizing t with
  | nil => exact ht
  | cons number numbers ih => exact ih (ht.turn number)

end Talks

end RemoteCall
