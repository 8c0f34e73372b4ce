import RemoteCall.Proofs.Line.Supply

/-!
# Paused input

A stream on which reads time out now and then. However the pauses fall, they cut the stream into
pieces, so a paused stream is the list of its pieces: a read times out between any two of them, and
the end of the stream is behind the last one. A piece may be empty, where one pause follows another.
What is sent in units arrives whole when no pause falls inside a unit.
-/

namespace RemoteCall

/-- A timeout is no interrupted read, which would be repeated. -/
theorem Error.kind_ne_interrupted {e : IoError} (he : ofIo e = .timeout) :
    e.kind ≠ .interrupted := by
  intro hkind
  unfold ofIo at he
  rw [hkind] at he
  exact nomatch he

/-- The units make up the pieces, and no pause between two pieces falls inside a unit. -/
inductive ArriveWhole : List (List UInt8) → List (List UInt8) → Prop where
  | nil : ArriveWhole [] [[]]
  | pause {units pieces : List (List UInt8)} (rest : ArriveWhole units pieces) :
    ArriveWhole units ([] :: pieces)
  | unit {u piece : List UInt8} {units pieces : List (List UInt8)}
    (rest : ArriveWhole units (piece :: pieces)) : ArriveWhole (u :: units) ((u ++ piece) :: pieces)

namespace ArriveWhole

variable {units pieces : List (List UInt8)}

/-- Something arrives. -/
theorem ne_nil (h : ArriveWhole units pieces) : pieces ≠ [] := by
  cases h with
  | nil => exact List.cons_ne_nil _ _
  | pause rest => exact List.cons_ne_nil _ _
  | unit rest => exact List.cons_ne_nil _ _

/-- All that was sent arrives. -/
theorem flatten_eq (h : ArriveWhole units pieces) : pieces.flatten = units.flatten := by
  induction h with
  | nil => rfl
  | pause rest ih => exact ih
  | unit rest ih =>
    rw [List.flatten_cons] at ih
    rw [List.flatten_cons, List.flatten_cons, List.append_assoc, ih]

/-- Without a pause every unit arrives whole. -/
theorem of_flatten (units : List (List UInt8)) : ArriveWhole units [units.flatten] := by
  induction units with
  | nil => exact .nil
  | cons u units ih => exact .unit ih

/-- Single bytes arrive whole however the pauses fall. -/
theorem of_bytes (hne : pieces ≠ []) : ArriveWhole (pieces.flatten.map ([·])) pieces := by
  induction pieces with
  | nil => exact absurd rfl hne
  | cons piece pieces ih =>
    induction piece with
    | cons b piece ihpiece => exact .unit (ihpiece (List.cons_ne_nil _ _))
    | nil =>
      by_cases hlast : pieces = []
      · subst hlast
        exact .nil
      · exact .pause (ih hlast)

/-- Pauses in front change nothing. -/
theorem idle {front : List (List UInt8)} (hfront : front.flatten = [])
    (h : ArriveWhole units pieces) : ArriveWhole units (front ++ pieces) := by
  induction front with
  | nil => exact h
  | cons piece front ih =>
    obtain ⟨rfl, hfront⟩ := List.append_eq_nil_iff.mp hfront
    exact .pause (ih hfront)

/-- Where there are no bytes every pause falls behind the units. -/
theorem of_flatten_eq_nil (hne : pieces ≠ []) (hflat : pieces.flatten = []) :
    ArriveWhole [] pieces := by
  induction pieces with
  | nil => exact absurd rfl hne
  | cons piece pieces ih =>
    obtain ⟨rfl, hrest⟩ := List.append_eq_nil_iff.mp hflat
    by_cases hlast : pieces = []
    · subst hlast
      exact .nil
    · exact .pause (ih hlast hrest)

/-- The first unit is at the beginning of the first piece that brings something. -/
theorem of_cons {u piece : List UInt8} (h : ArriveWhole (u :: units) (piece :: pieces))
    (hne : piece ≠ []) : ∃ q, piece = u ++ q ∧ ArriveWhole units (q :: pieces) := by
  cases h with
  | pause rest => exact absurd rfl hne
  | unit rest => exact ⟨_, rfl, rest⟩

/-- The first unit is in one piece, behind pauses only. -/
theorem exists_first {u : List UInt8} (h : ArriveWhole (u :: units) pieces) :
    ∃ (front : List (List UInt8)) (q : List UInt8) (rest : List (List UInt8)),
      front.flatten = [] ∧ pieces = front ++ (u ++ q) :: rest ∧ ArriveWhole units (q :: rest) := by
  induction pieces with
  | nil => exact absurd rfl h.ne_nil
  | cons piece pieces ih =>
    cases h with
    | pause rest =>
      obtain ⟨front, q, more, hfront, rfl, hunits⟩ := ih rest
      exact ⟨[] :: front, q, more, hfront, rfl, hunits⟩
    | unit rest => exact ⟨[], _, _, rfl, rfl, rest⟩

/-- The bytes in front of units arrive in some pieces, the last of them in the piece in which the
units begin. -/
theorem exists_bytes {bytes : List UInt8} (hne : bytes ≠ [])
    (h : ArriveWhole (bytes.map ([·]) ++ units) pieces) :
    ∃ (front : List (List UInt8)) (p q : List UInt8) (rest : List (List UInt8)),
      p ≠ [] ∧ front.flatten ++ p = bytes ∧ pieces = front ++ (p ++ q) :: rest ∧
        ArriveWhole units (q :: rest) := by
  induction bytes generalizing pieces with
  | nil => exact absurd rfl hne
  | cons b bytes ih =>
    obtain ⟨front, q, rest, hfront, rfl, hmore⟩ := exists_first h
    by_cases hlast : bytes = []
    · subst hlast
      exact ⟨front, [b], q, rest, List.cons_ne_nil _ _, by rw [hfront]; rfl, rfl, hmore⟩
    · obtain ⟨later, p, q', rest', hp, hbytes, hpieces, hunits⟩ := ih hlast hmore
      cases later with
      | nil =>
        obtain ⟨rfl, rfl⟩ := List.cons.inj hpieces
        refine ⟨front, b :: p, q', rest, List.cons_ne_nil _ _, ?_, rfl, hunits⟩
        rw [hfront, ← hbytes]
        rfl
      | cons piece later =>
        obtain ⟨rfl, rfl⟩ := List.cons.inj hpieces
        refine ⟨front ++ ([b] ++ q) :: later, p, q', rest', hp, ?_, ?_, hunits⟩
        · rw [List.flatten_append, hfront, List.nil_append, List.flatten_cons, ← hbytes,
            List.flatten_cons]
          simp
        · simp

end ArriveWhole

namespace Inbound

/-- The input brings these pieces one after another, and a read times out between them. -/
inductive Paced : Inbound → List (List UInt8) → Prop where
  | last {input : Inbound} {piece : List UInt8} (h : input.Brings piece []) : Paced input [piece]
  | pause {input : Inbound} {piece : List UInt8} {e : IoError} {later : List Arrival}
    {pieces : List (List UInt8)} (h : input.Brings piece (.fault e :: later))
    (he : Error.ofIo e = .timeout) (rest : Paced ⟨[], later⟩ pieces) : Paced input (piece :: pieces)

variable {input : Inbound} {piece : List UInt8} {pieces : List (List UInt8)}

/-- There is always a piece, though it may be empty. -/
theorem Paced.ne_nil (h : input.Paced pieces) : pieces ≠ [] := by
  cases h with
  | last h => exact List.cons_ne_nil _ _
  | pause h he rest => exact List.cons_ne_nil _ _

/-- Reading inside the first piece leaves the others as they are. -/
theorem Paced.brings (h : input.Paced (piece :: pieces)) :
    ∃ after, input.Brings piece after ∧
      ∀ (later : Inbound) (other : List UInt8), later.Brings other after →
        later.Paced (other :: pieces) := by
  cases h with
  | last h => exact ⟨[], h, fun later other hlater => .last hlater⟩
  | pause h he rest => exact ⟨_, h, fun later other hlater => .pause hlater he rest⟩

/-- Behind every piece but the last one a read times out, and the next piece follows. -/
theorem Paced.pause_next (h : input.Paced (piece :: pieces)) (hne : pieces ≠ []) :
    ∃ e later, input.Brings piece (.fault e :: later) ∧ Error.ofIo e = .timeout ∧
      Paced ⟨[], later⟩ pieces := by
  cases h with
  | last h => exact absurd rfl hne
  | pause h he rest => exact ⟨_, _, h, he, rest⟩

/-- Behind the last piece the stream ends. -/
theorem Paced.brings_last (h : input.Paced [piece]) : input.Brings piece [] := by
  cases h with
  | last h => exact h
  | pause h he rest => exact absurd rfl rest.ne_nil

/-- What comes after some bytes counts in the size of the input with them. -/
theorem Brings.length_add_size_le {bytes : List UInt8} {after : List Arrival}
    (h : input.Brings bytes after) : bytes.length + size ⟨[], after⟩ ≤ input.size := by
  have hlength := congrArg List.length h.flatMap_bytes
  obtain ⟨chunks, -, hcoming, -⟩ := h
  have harrivals := congrArg List.length hcoming
  simp only [List.length_append, List.length_map] at hlength harrivals
  simp only [size, bytesLeft, List.length_nil]
  omega

/-- Every byte and every pause counts in the size of the input. -/
theorem Paced.length_le_size (h : input.Paced pieces) :
    pieces.flatten.length + pieces.length ≤ input.size + 1 := by
  induction h with
  | last h =>
    have hsize := h.length_le_size
    simp only [List.flatten_cons, List.flatten_nil, List.append_nil, List.length_cons,
      List.length_nil]
    omega
  | pause h he rest ih =>
    have hsize := h.length_add_size_le
    have hfault : ∀ (e : IoError) (later : List Arrival),
        size ⟨[], .fault e :: later⟩ = size ⟨[], later⟩ + 1 := fun _ _ => rfl
    rw [hfault] at hsize
    simp only [List.flatten_cons, List.length_append, List.length_cons]
    omega

end Inbound

end RemoteCall
