import RemoteCall.Proofs.Computation
import RemoteCall.Proofs.Line.Supply

/-!
# The flow of a line

What single reads would find on a line, one after another: bytes, failures and ends of the stream.
Neither the borders of chunks nor interrupted reads are part of it, for a reader goes on across
both. Every reader is a reader of the flow alone: where two inputs have the same flow it comes to
the same outcome and leaves the same flow, and what it takes is the beginning of the flow.
-/

namespace RemoteCall

/-- What is found by a single read. -/
inductive Find where
  | byte (b : UInt8)
  | fault (e : IoError)
  | ending
  deriving DecidableEq, Repr

/-- Everything that single reads find, in order. -/
abbrev Flow := List Find

/-- What is found of an arrival. An interrupted read is repeated, so nothing is. -/
def Arrival.finds : Arrival → Flow
  | .chunk [] => [.ending]
  | .chunk (b :: bytes) => (b :: bytes).map .byte
  | .fault e => if e.kind = .interrupted then [] else [.fault e]

/-- What is found on a line, the bytes that are held first. -/
def Inbound.flow (input : Inbound) : Flow :=
  input.held.map .byte ++ input.coming.flatMap Arrival.finds

namespace Flow

/-- Exactly `n` bytes. Those in front of a failure are lost with it. -/
def take : Nat → Flow → Except Error (List UInt8) × Flow
  | 0, flow => (.ok [], flow)
  | _ + 1, [] => (.error .eof, [])
  | _ + 1, .ending :: rest => (.error .eof, rest)
  | _ + 1, .fault e :: rest => (.error (.ofIo e), rest)
  | n + 1, .byte b :: rest => ((take n rest).1.map (b :: ·), (take n rest).2)

/-- The first byte, or `none` at the end of the stream. -/
def first : Flow → Except Error (Option UInt8) × Flow
  | [] => (.ok none, [])
  | .ending :: rest => (.ok none, rest)
  | .fault e :: rest => (.error (.ofIo e), rest)
  | .byte b :: rest => (.ok (some b), rest)

/-- Bytes that are held are taken before anything else is found. -/
theorem take_of_length_le {n : Nat} {held : List UInt8} (h : n ≤ held.length) (rest : Flow) :
    take n (held.map .byte ++ rest) = (.ok (held.take n), (held.drop n).map .byte ++ rest) := by
  induction held generalizing n with
  | nil =>
    obtain rfl : n = 0 := Nat.le_zero.mp h
    rfl
  | cons b held ih =>
    cases n with
    | zero => rfl
    | succ n =>
      rw [List.map_cons, List.cons_append, take, ih (Nat.le_of_succ_le_succ h)]
      rfl

/-- With too few bytes in front, what stands behind them decides. -/
theorem take_of_lt_length {n : Nat} {held : List UInt8} {rest left : Flow} {e : Error}
    (h : held.length < n) (hrest : ∀ m, take (m + 1) rest = (.error e, left)) :
    take n (held.map .byte ++ rest) = (.error e, left) := by
  induction held generalizing n with
  | nil =>
    obtain ⟨m, rfl⟩ : ∃ m, n = m + 1 := ⟨n - 1, by rw [List.length_nil] at h; omega⟩
    exact hrest m
  | cons b held ih =>
    cases n with
    | zero => exact absurd h (Nat.not_lt_zero _)
    | succ n =>
      rw [List.map_cons, List.cons_append, take, ih (Nat.lt_of_succ_lt_succ h)]
      rfl

/-- Taking puts nothing back. -/
theorem length_take_le (n : Nat) (flow : Flow) : (take n flow).2.length ≤ flow.length := by
  fun_induction take n flow with
  | case1 => exact Nat.le_refl _
  | case2 => exact Nat.le_refl _
  | case3 => exact Nat.le_succ _
  | case4 => exact Nat.le_succ _
  | case5 n b rest ih => exact Nat.le_succ_of_le ih

/-- Looking for a first byte puts nothing back. -/
theorem length_first_le (flow : Flow) : (first flow).2.length ≤ flow.length := by
  cases flow with
  | nil => exact Nat.le_refl _
  | cons found rest => cases found <;> exact Nat.le_succ _

/-- Unless the stream has ended, a read gets the flow on. -/
theorem first_cases (flow : Flow) :
    (first flow).1 = .ok none ∨ (first flow).2.length < flow.length := by
  cases flow with
  | nil => exact .inl rfl
  | cons found rest => cases found <;> exact .inr (Nat.lt_succ_self _)

/-- Taking at least one byte makes the flow shorter, or the stream has ended. -/
theorem take_cases (n : Nat) (flow : Flow) :
    (take (n + 1) flow).1 = .error .eof ∨ (take (n + 1) flow).2.length < flow.length := by
  cases flow with
  | nil => exact .inl rfl
  | cons found rest =>
    cases found with
    | byte b => exact .inr (Nat.lt_succ_of_le (length_take_le n rest))
    | fault e => exact .inr (Nat.lt_succ_self _)
    | ending => exact .inl rfl

/-- What is taken is the beginning of the flow. -/
theorem eq_of_take {n : Nat} {flow left : Flow} {bytes : List UInt8}
    (h : take n flow = (.ok bytes, left)) :
    flow = bytes.map .byte ++ left ∧ bytes.length = n := by
  induction n generalizing flow bytes with
  | zero =>
    cases h
    exact ⟨rfl, rfl⟩
  | succ n ih =>
    cases flow with
    | nil => exact nomatch congrArg Prod.fst h
    | cons found rest =>
      cases found with
      | ending => exact nomatch congrArg Prod.fst h
      | fault e => exact nomatch congrArg Prod.fst h
      | byte b =>
        rw [take] at h
        cases hrest : take n rest with
        | mk outcome later =>
          rw [hrest] at h
          cases outcome with
          | error e => exact nomatch congrArg Prod.fst h
          | ok taken =>
            cases h
            obtain ⟨rfl, rfl⟩ := ih hrest
            exact ⟨rfl, rfl⟩

end Flow

namespace Inbound

/-- Gathering bytes takes them from the flow. -/
theorem gather_flow (n : Nat) (held : List UInt8) (coming : List Arrival) :
    ((gather n held coming).1, (gather n held coming).2.flow) =
      Flow.take n (held.map .byte ++ coming.flatMap Arrival.finds) := by
  induction coming generalizing held with
  | nil =>
    by_cases hheld : n ≤ held.length
    · rw [gather_of_held hheld, Flow.take_of_length_le hheld]
      rfl
    · have hlt := Nat.lt_of_not_le hheld
      rw [gather_of_meets hlt .ending]
      exact (Flow.take_of_lt_length hlt fun _ => rfl).symm
  | cons arrival rest ih =>
    by_cases hheld : n ≤ held.length
    · rw [gather_of_held hheld, Flow.take_of_length_le hheld]
      rfl
    · have hlt := Nat.lt_of_not_le hheld
      have htaken : ¬ (held.take n).length = n := by
        rw [List.length_take]
        omega
      rw [List.flatMap_cons]
      cases arrival with
      | chunk bytes =>
        cases bytes with
        | nil =>
          have hgather : gather n held (.chunk [] :: rest) = (.error .eof, ⟨[], rest⟩) := by
            unfold gather
            simp only [htaken, ↓reduceIte]
          rw [hgather]
          exact (Flow.take_of_lt_length hlt fun _ => rfl).symm
        | cons b bytes =>
          rw [gather_chunk hlt (List.cons_ne_nil b bytes), ih, Arrival.finds, List.map_append,
            List.append_assoc]
      | fault e =>
        by_cases he : e.kind = .interrupted
        · have hgather : gather n held (.fault e :: rest) = gather n held rest := by
            conv => lhs; unfold gather
            simp only [htaken, he, ↓reduceIte]
          rw [hgather, ih, Arrival.finds, if_pos he, List.nil_append]
        · rw [gather_of_meets hlt (.fault e rest he), Arrival.finds, if_neg he]
          exact (Flow.take_of_lt_length hlt fun _ => rfl).symm

/-- Filling up from the line is taking from its flow. -/
theorem fill_flow (n : Nat) (input : Inbound) :
    ((fill n input).1, (fill n input).2.flow) = Flow.take n input.flow :=
  gather_flow n input.held input.coming

/-- The first byte on the line is the first of its flow. -/
theorem first_flow (coming : List Arrival) :
    ((first coming).1, (first coming).2.flow) = Flow.first (coming.flatMap Arrival.finds) := by
  induction coming with
  | nil => rfl
  | cons arrival rest ih =>
    rw [List.flatMap_cons]
    cases arrival with
    | chunk bytes => cases bytes <;> rfl
    | fault e =>
      by_cases he : e.kind = .interrupted
      · rw [first, if_pos he, ih, Arrival.finds, if_pos he, List.nil_append]
      · rw [first, if_neg he, Arrival.finds, if_neg he]
        rfl

/-- The next byte is the first of the flow. -/
theorem next_flow (input : Inbound) :
    ((next input).1, (next input).2.flow) = Flow.first input.flow := by
  obtain ⟨held, coming⟩ := input
  cases held with
  | nil => exact first_flow coming
  | cons b held => rfl

/-- The flow of what is brought, before that of what comes after it. -/
theorem Brings.flow_eq {input : Inbound} {bytes : List UInt8} {after : List Arrival}
    (h : input.Brings bytes after) :
    input.flow = bytes.map .byte ++ after.flatMap Arrival.finds := by
  obtain ⟨chunks, hne, hcoming, rfl⟩ := h
  have hchunks : (chunks.map Arrival.chunk).flatMap Arrival.finds =
      chunks.flatten.map Find.byte := by
    clear hcoming
    induction chunks with
    | nil => rfl
    | cons c cs ih =>
      obtain ⟨b, bs, rfl⟩ := List.exists_cons_of_ne_nil (hne c (List.mem_cons_self ..))
      rw [List.map_cons, List.flatMap_cons, ih fun c hc => hne c (List.mem_cons_of_mem _ hc),
        List.flatten_cons, List.map_append, Arrival.finds]
  rw [flow, hcoming, List.flatMap_append, hchunks, List.map_append, List.append_assoc]

/-- Everything on the flow is a byte or an arrival of its own. -/
theorem length_flow_le_size (input : Inbound) : input.flow.length ≤ input.size := by
  have hfinds : ∀ arrival : Arrival, arrival.finds.length ≤ arrival.bytes.length + 1 := by
    intro arrival
    cases arrival with
    | chunk bytes => cases bytes <;> simp [Arrival.finds, Arrival.bytes]
    | fault e =>
      rw [Arrival.finds]
      split <;> simp
  have hcoming : ∀ coming : List Arrival, (coming.flatMap Arrival.finds).length ≤
      (coming.flatMap Arrival.bytes).length + coming.length := by
    intro coming
    induction coming with
    | nil => exact Nat.le_refl _
    | cons arrival rest ih =>
      have := hfinds arrival
      simp only [List.flatMap_cons, List.length_append, List.length_cons]
      omega
  have := hcoming input.coming
  simp only [flow, size, bytesLeft, List.length_append, List.length_map]
  omega

end Inbound

namespace Reader

variable {α β : Type} {x : Reader α} {k : α → Reader β}

/-- The reader reads the flow alone, and it puts nothing back. -/
abbrev Respects (x : Reader α) : Prop := RemoteCall.Respects Inbound.flow List.length x

/-- What the reader comes to is made of the bytes that it takes from the flow. -/
def Yields (x : Reader α) (P : List UInt8 → α → Prop) : Prop :=
  ∀ (i j : Inbound) (a : α), x i = (.ok a, j) →
    ∃ bytes, i.flow = bytes.map .byte ++ j.flow ∧ P bytes a

/-- A reader of so many bytes reads the flow alone. -/
theorem respects_take (n : Nat) : Respects (take n) := by
  have hfill : ∀ i : Inbound, ((take n i).1, (take n i).2.flow) = Flow.take n i.flow :=
    Inbound.fill_flow n
  constructor
  · intro i j hflow
    exact Prod.mk.inj ((hfill i).trans (hflow ▸ (hfill j).symm))
  · intro i
    have hleft : (take n i).2.flow = (Flow.take n i.flow).2 := congrArg Prod.snd (hfill i)
    rw [hleft]
    exact Flow.length_take_le n i.flow

/-- A reader of a byte reads the flow alone. -/
theorem respects_byte : Respects byte := (respects_take 1).bind fun _ => respects_pure _

/-- A reader of a byte or the end reads the flow alone. -/
theorem respects_next : Respects byte? := by
  have hnext : ∀ i : Inbound, ((byte? i).1, (byte? i).2.flow) = Flow.first i.flow :=
    Inbound.next_flow
  constructor
  · intro i j hflow
    exact Prod.mk.inj ((hnext i).trans (hflow ▸ (hnext j).symm))
  · intro i
    have hleft : (byte? i).2.flow = (Flow.first i.flow).2 := congrArg Prod.snd (hnext i)
    rw [hleft]
    exact Flow.length_first_le i.flow

/-- Giving a value takes nothing. -/
theorem yields_pure (a : α) : Yields (pure a) fun bytes b => bytes = [] ∧ b = a := by
  intro i j b h
  cases h
  exact ⟨[], rfl, rfl, rfl⟩

/-- What fails gives nothing. -/
theorem yields_throw (e : Error) (P : List UInt8 → α → Prop) : Yields (throw e) P :=
  fun _ _ _ h => nomatch congrArg Prod.fst h

/-- What a reader gives may be said more weakly. -/
theorem Yields.imp {P Q : List UInt8 → α → Prop} (hx : Yields x P)
    (himp : ∀ bytes a, P bytes a → Q bytes a) : Yields x Q := by
  intro i j a h
  obtain ⟨bytes, hflow, hP⟩ := hx i j a h
  exact ⟨bytes, hflow, himp bytes a hP⟩

/-- Readers in a row take their bytes one after another. -/
theorem Yields.bind {P : List UInt8 → α → Prop} {Q : List UInt8 → β → Prop} (hx : Yields x P)
    (hk : ∀ first a, P first a → Yields (k a) fun bytes b => Q (first ++ bytes) b) :
    Yields (x >>= k) Q := by
  intro i j b h
  cases hi : x i with
  | mk result middle =>
    cases result with
    | error e =>
      rw [bind_of_error hi] at h
      exact nomatch congrArg Prod.fst h
    | ok a =>
      rw [bind_of_ok hi] at h
      obtain ⟨first, hfirst, hP⟩ := hx i middle a hi
      obtain ⟨bytes, hrest, hQ⟩ := hk first a hP middle j b h
      refine ⟨first ++ bytes, ?_, hQ⟩
      rw [hfirst, hrest, List.map_append, List.append_assoc]

/-- A reader of so many bytes gives the bytes that it takes. -/
theorem yields_take (n : Nat) : Yields (take n) fun bytes a => bytes = a ∧ a.length = n := by
  intro i j a h
  have hflow := Inbound.fill_flow n i
  rw [show Inbound.fill n i = (.ok a, j) from h] at hflow
  obtain ⟨hbytes, hlength⟩ := Flow.eq_of_take hflow.symm
  exact ⟨a, hbytes, rfl, hlength⟩

/-- A reader of a byte gives the byte that it takes. -/
theorem yields_byte : Yields byte fun bytes b => bytes = [b] := by
  refine (yields_take 1).bind fun first a ⟨hfirst, hlength⟩ => ?_
  refine (yields_pure _).imp fun bytes b ⟨hbytes, hb⟩ => ?_
  obtain ⟨c, rfl⟩ := List.length_eq_one_iff.mp hlength
  rw [hbytes, hb, hfirst]
  rfl

end Reader

/-- A byte that is next is the first of the flow. -/
theorem Inbound.flow_of_next {i j : Inbound} {b : UInt8} (h : next i = (.ok (some b), j)) :
    i.flow = .byte b :: j.flow := by
  have hflow := next_flow i
  rw [h] at hflow
  cases hi : i.flow with
  | nil =>
    rw [hi] at hflow
    cases hflow
  | cons found rest =>
    rw [hi] at hflow
    cases found <;> cases hflow
    rfl

end RemoteCall
