import RemoteCall.Line.Inbound

/-!
# Supplied input

Input *brings* bytes when these are what is still to be read before anything else arrives, in
whatever pieces they come. Reading a number of bytes depends on the bytes alone and never on the
pieces: with enough of them it succeeds and leaves the others, and with too few it meets what comes
after.
-/

namespace RemoteCall.Inbound

/-- The input brings exactly these bytes, cut in some way, before these arrivals. -/
def Brings (input : Inbound) (bytes : List UInt8) (after : List Arrival) : Prop :=
  ∃ chunks : List (List UInt8), (∀ c ∈ chunks, c ≠ []) ∧
    input.coming = chunks.map .chunk ++ after ∧ input.held ++ chunks.flatten = bytes

/-- What a read meets that finds no byte: the end of the stream, or a failure of the line with what
stands behind it. -/
inductive Meets : List Arrival → Error → List Arrival → Prop where
  | ending : Meets [] .eof []
  | fault (e : IoError) (rest : List Arrival) (h : e.kind ≠ .interrupted) :
    Meets (.fault e :: rest) (.ofIo e) rest

variable {input : Inbound} {bytes rest : List UInt8} {after : List Arrival}

/-- Without anything held the arrivals are all that comes. -/
theorem brings_empty : Brings ⟨[], after⟩ [] after := ⟨[], by simp, rfl, rfl⟩

/-- Any input brings what it holds. -/
theorem brings_held (input : Inbound) : input.Brings input.held input.coming :=
  ⟨[], by simp, rfl, by simp⟩

/-- Input made of bytes brings them. -/
theorem brings_ofBytes (bytes : List UInt8) : (ofBytes bytes).Brings bytes [] := by
  cases bytes with
  | nil => exact brings_empty
  | cons b bs => exact ⟨[b :: bs], by simp, rfl, by simp [ofBytes]⟩

/-- Later arrivals come after the bytes. -/
theorem Brings.extend (h : input.Brings bytes after) (more : List Arrival) :
    (input.extend more).Brings bytes (after ++ more) := by
  obtain ⟨chunks, hne, hcoming, hbytes⟩ := h
  exact ⟨chunks, hne, by simp [Inbound.extend, hcoming], hbytes⟩

/-- A piece that arrives next adds its bytes. -/
theorem Brings.extend_chunk (h : input.Brings bytes []) {more : List UInt8} (hmore : more ≠ []) :
    (input.extend [.chunk more]).Brings (bytes ++ more) [] := by
  obtain ⟨chunks, hne, hcoming, hbytes⟩ := h
  refine ⟨chunks ++ [more], ?_, by simp [Inbound.extend, hcoming], ?_⟩
  · intro c hc
    rcases List.mem_append.mp hc with hc | hc
    · exact hne c hc
    · rw [List.mem_singleton.mp hc]
      exact hmore
  · rw [← hbytes]
    simp [Inbound.extend]

/-- The bytes of all arrivals together. -/
theorem Brings.flatMap_bytes (h : input.Brings bytes after) :
    input.held ++ input.coming.flatMap Arrival.bytes = bytes ++ after.flatMap Arrival.bytes := by
  obtain ⟨chunks, _, hcoming, rfl⟩ := h
  have hchunks : (chunks.map Arrival.chunk).flatMap Arrival.bytes = chunks.flatten := by
    rw [List.flatMap_map]
    exact List.flatMap_id'
  rw [hcoming, List.flatMap_append, hchunks, List.append_assoc]

/-- What input brings before given arrivals is determined. -/
theorem Brings.unique {other : List UInt8} (h : input.Brings bytes after)
    (h' : input.Brings other after) : bytes = other :=
  List.append_cancel_right (h.flatMap_bytes.symm.trans h'.flatMap_bytes)

/-- Input that brings bytes is at least as large. -/
theorem Brings.length_le_size (h : input.Brings bytes after) : bytes.length ≤ input.size := by
  have hlength := congrArg List.length h.flatMap_bytes
  simp only [List.length_append] at hlength
  simp only [size, bytesLeft]
  omega

/-- Input that brings nothing holds nothing, and the arrivals are next. -/
theorem Brings.eq_of_nil (h : input.Brings [] after) : input = ⟨[], after⟩ := by
  obtain ⟨chunks, hne, hcoming, hbytes⟩ := h
  obtain ⟨hheld, hflatten⟩ := List.append_eq_nil_iff.mp hbytes
  have hchunks : chunks = [] := by
    cases chunks with
    | nil => rfl
    | cons c cs =>
      simp only [List.flatten_cons, List.append_eq_nil_iff] at hflatten
      exact absurd hflatten.1 (hne c (List.mem_cons_self ..))
  subst hchunks
  cases input
  simp_all

/-- Held bytes are used before anything is taken in. -/
theorem gather_of_held {n : Nat} {held : List UInt8} {coming : List Arrival}
    (h : n ≤ held.length) :
    gather n held coming = (.ok (held.take n), ⟨held.drop n, coming⟩) := by
  have htaken : (held.take n).length = n := by
    rw [List.length_take]
    omega
  unfold gather
  simp only [htaken, ↓reduceIte]

/-- When too little is held the next piece is taken in. -/
theorem gather_chunk {n : Nat} {held chunk : List UInt8} {coming : List Arrival}
    (h : held.length < n) (hchunk : chunk ≠ []) :
    gather n held (.chunk chunk :: coming) = gather n (held ++ chunk) coming := by
  have htaken : ¬ (held.take n).length = n := by
    rw [List.length_take]
    omega
  obtain ⟨b, bs, rfl⟩ := List.exists_cons_of_ne_nil hchunk
  conv => lhs; unfold gather
  simp only [htaken, ↓reduceIte]

/-- With too little held and nothing to come, gathering fails as the line does and loses what was
held. -/
theorem gather_of_meets {n : Nat} {held : List UInt8} {e : Error} {later : List Arrival}
    (h : held.length < n) (hmeets : Meets after e later) :
    gather n held after = (.error e, ⟨[], later⟩) := by
  have htaken : ¬ (held.take n).length = n := by
    rw [List.length_take]
    omega
  unfold gather
  cases hmeets with
  | ending => simp only [htaken, ↓reduceIte]
  | fault e later he => simp only [htaken, he, ↓reduceIte]

/-- Gathering as many bytes as there are, or fewer, succeeds however they are cut. -/
theorem gather_of_le (n : Nat) (chunks : List (List UInt8)) (hne : ∀ c ∈ chunks, c ≠ [])
    (held : List UInt8) (hn : n ≤ (held ++ chunks.flatten).length) :
    ∃ later, gather n held (chunks.map .chunk ++ after) =
        (.ok ((held ++ chunks.flatten).take n), later) ∧
      later.Brings ((held ++ chunks.flatten).drop n) after := by
  induction chunks generalizing held with
  | nil =>
    simp only [List.flatten_nil, List.append_nil] at hn ⊢
    exact ⟨⟨held.drop n, after⟩, gather_of_held hn, [], by simp, rfl, by simp⟩
  | cons c cs ih =>
    by_cases hheld : n ≤ held.length
    · refine ⟨⟨held.drop n, (c :: cs).map .chunk ++ after⟩, ?_, c :: cs, hne, rfl, ?_⟩
      · rw [gather_of_held hheld, List.take_append_of_le_length hheld]
      · rw [List.drop_append_of_le_length hheld]
    · have happend : held ++ c ++ cs.flatten = held ++ (c :: cs).flatten := by simp
      obtain ⟨later, hgather, hlater⟩ := ih (fun c hc => hne c (List.mem_cons_of_mem _ hc))
        (held ++ c) (by rw [happend]; exact hn)
      rw [happend] at hgather hlater
      refine ⟨later, ?_, hlater⟩
      rw [List.map_cons, List.cons_append,
        gather_chunk (Nat.lt_of_not_le hheld) (hne c (List.mem_cons_self ..))]
      exact hgather

/-- Gathering more bytes than there are goes on with what comes after them. -/
theorem gather_of_lt (n : Nat) (chunks : List (List UInt8)) (hne : ∀ c ∈ chunks, c ≠ [])
    (held : List UInt8) (hn : (held ++ chunks.flatten).length < n) :
    gather n held (chunks.map .chunk ++ after) = gather n (held ++ chunks.flatten) after := by
  induction chunks generalizing held with
  | nil => simp
  | cons c cs ih =>
    have happend : held ++ c ++ cs.flatten = held ++ (c :: cs).flatten := by simp
    have hheld : held.length < n := by
      rw [List.length_append] at hn
      omega
    rw [List.map_cons, List.cons_append, gather_chunk hheld (hne c (List.mem_cons_self ..)),
      ih (fun c hc => hne c (List.mem_cons_of_mem _ hc)) _ (by rw [happend]; exact hn), happend]

/-- Reading bytes that are there gives them and leaves the rest. -/
theorem fill_of_brings (h : input.Brings (bytes ++ rest) after) :
    ∃ later, fill bytes.length input = (.ok bytes, later) ∧ later.Brings rest after := by
  obtain ⟨chunks, hne, hcoming, hbytes⟩ := h
  have hlength : bytes.length ≤ (input.held ++ chunks.flatten).length := by
    rw [hbytes, List.length_append]
    omega
  obtain ⟨later, hgather, hlater⟩ := @gather_of_le after _ chunks hne _ hlength
  rw [hbytes, List.take_left] at hgather
  rw [hbytes, List.drop_left] at hlater
  exact ⟨later, by rw [fill, hcoming]; exact hgather, hlater⟩

/-- Reading more bytes than there are fails as the line does, and what was there is lost. -/
theorem fill_of_meets {n : Nat} {e : Error} {later : List Arrival} (h : input.Brings bytes after)
    (hn : bytes.length < n) (hmeets : Meets after e later) :
    fill n input = (.error e, ⟨[], later⟩) := by
  obtain ⟨chunks, hne, hcoming, hbytes⟩ := h
  rw [fill, hcoming, gather_of_lt n chunks hne input.held (by rw [hbytes]; exact hn), hbytes]
  exact gather_of_meets hn hmeets

/-- The next byte, if one is there, is the first of those brought. -/
theorem next_of_brings {b : UInt8} (h : input.Brings (b :: rest) after) :
    ∃ later, next input = (.ok (some b), later) ∧ later.Brings rest after := by
  obtain ⟨chunks, hne, hcoming, hbytes⟩ := h
  cases hheld : input.held with
  | cons a held =>
    rw [hheld, List.cons_append, List.cons.injEq] at hbytes
    obtain ⟨rfl, hrest⟩ := hbytes
    refine ⟨{ input with held := held }, by simp [next, hheld], chunks, hne, hcoming, hrest⟩
  | nil =>
    cases chunks with
    | nil => simp [hheld] at hbytes
    | cons c cs =>
      obtain ⟨a, bs, rfl⟩ := List.exists_cons_of_ne_nil (hne c (List.mem_cons_self ..))
      simp only [hheld, List.nil_append, List.flatten_cons, List.cons_append,
        List.cons.injEq] at hbytes
      obtain ⟨rfl, hrest⟩ := hbytes
      refine ⟨⟨bs, cs.map .chunk ++ after⟩, by simp [next, hheld, hcoming, first], cs, ?_, rfl,
        hrest⟩
      exact fun c hc => hne c (List.mem_cons_of_mem _ hc)

/-- A failure of the line between two pieces loses nothing. -/
theorem next_of_fault {e : IoError} {later : List Arrival}
    (h : input.Brings [] (.fault e :: later)) (he : e.kind ≠ .interrupted) :
    next input = (.error (.ofIo e), ⟨[], later⟩) := by
  rw [h.eq_of_nil]
  simp [next, first, he]

/-- At the end of the stream there is no next byte. -/
theorem next_of_end (h : input.Brings [] []) : next input = (.ok none, ⟨[], []⟩) := by
  rw [h.eq_of_nil]
  rfl

end RemoteCall.Inbound
