import RemoteCall.Proofs.Wire.Reading

/-!
# Values cut short

A reader that finds a strict beginning of what it reads without a fault fails as the line does: at
the end of the stream, or with the failure that stands there. It has then lost that beginning. The
decoder never gives up before that, for its budget is more than the bytes that it has before it.
-/

namespace RemoteCall

open Reader

variable {f : Format}

/-- A length needs all of its bytes. -/
theorem Reader.needs_word (v : UInt32) : Needs (Reader.word f) (f.wordBytes v) := by
  have h := (needs_take (f.wordBytes v)).bind_pure (k := fun bs => pure (f.wordOf bs))
  rw [Format.length_wordBytes] at h
  exact h

/-- A number needs all of its bytes. -/
theorem Reader.needs_number {bs : List UInt8} (h : bs.length = f.width.toNat) :
    Needs (Reader.number f) bs := by
  have hneeds := (needs_take bs).bind_pure
    (k := fun bs => pure (⟨f.numberOf bs, f.kind⟩ : Number))
  rw [h] at hneeds
  exact hneeds

namespace Payload

variable {p : Payload}

/-- A string needs all of its payload. -/
theorem needs_string {bs : List UInt8} (h : p.reading = .done bs) :
    Needs (Reader.string f) (p.wire f) := by
  refine (needs_word _).bind (follows_word _) ?_
  unfold reading at h
  rw [p.toNat_length]
  by_cases hsize : maxString < p.bytes.length
  · simp [hsize] at h
  · simp only [hsize, ↓reduceIte]
    exact needs_take p.bytes

/-- A reference needs all of its payload. -/
theorem needs_reference {path : String} (h : p.referenceReading = .done path) :
    Needs (Reader.reference f) (p.wire f) := by
  obtain ⟨bs, hbs, -⟩ := Reading.andThen_eq_done.mp h
  exact (needs_string hbs).bind_pure

/-- A blob needs all of its payload, and its end mark. -/
theorem needs_blob {bs : List UInt8} (h : p.blobReading = .done bs) :
    Needs (Reader.blob f) (Tag.string.toByte :: (p.wire f ++ [Tag.blobEnd.toByte])) := by
  obtain ⟨bs, hbs, -⟩ := Reading.andThen_eq_done.mp h
  refine (needs_byte Tag.string.toByte).bind (follows_byte _) ?_
  have hstring := p.follows_string (f := f)
  rw [hbs] at hstring
  exact (needs_string hbs).bind hstring (needs_byte Tag.blobEnd.toByte).bind_pure

end Payload

namespace Term

mutual

/-- The decoder breaks off in a term that it would read without a fault. -/
theorem breaks_item (t : Term f) {budget depth : Nat} {v : Value} {part missing : List UInt8}
    (hread : t.reading depth = .done v) (hpart : part ++ missing = t.bytes)
    (hmissing : missing ≠ []) (hbudget : 2 * part.length + 1 ≤ budget) :
    Breaks (Reader.item f budget depth) part := by
  obtain ⟨n, rfl⟩ : ∃ n, budget = n + 1 := ⟨budget - 1, by omega⟩
  rw [Reader.item]
  cases part with
  | nil => exact breaks_byte.bind
  | cons b part =>
    rw [List.length_cons] at hbudget
    cases t with
    | nil => simp_all [bytes]
    | number bs hbs =>
      rw [bytes, List.cons_append, List.cons.injEq] at hpart
      obtain ⟨rfl, hpart⟩ := hpart
      exact (follows_byte _).bind_breaks
        ((needs_number hbs).bind_pure part missing hpart hmissing)
    | boolean byte =>
      rw [bytes, List.cons_append, List.cons.injEq] at hpart
      obtain ⟨rfl, hpart⟩ := hpart
      exact (follows_byte _).bind_breaks ((needs_byte byte).bind_pure part missing hpart hmissing)
    | string p =>
      rw [bytes, List.cons_append, List.cons.injEq] at hpart
      obtain ⟨rfl, hpart⟩ := hpart
      rw [reading] at hread
      obtain ⟨bs, hbs, -⟩ := Reading.andThen_eq_done.mp hread
      exact (follows_byte _).bind_breaks
        ((Payload.needs_string hbs).bind_pure part missing hpart hmissing)
    | table ps =>
      rw [bytes, List.cons_append, List.cons.injEq] at hpart
      obtain ⟨rfl, hpart⟩ := hpart
      rw [reading] at hread
      refine (follows_byte _).bind_breaks ?_
      by_cases hdepth : maxDepth ≤ depth
      · simp [hdepth] at hread
      · simp only [hdepth, ↓reduceIte] at hread
        obtain ⟨qs, hqs, -⟩ := Reading.andThen_eq_done.mp hread
        simp only [Tag.ofByte?_toByte, hdepth, ↓reduceIte]
        exact (breaks_pairs ps hqs hpart hmissing (by omega)).bind
    | blob p =>
      rw [bytes, List.cons_append, List.cons.injEq] at hpart
      obtain ⟨rfl, hpart⟩ := hpart
      rw [reading] at hread
      obtain ⟨bs, hbs, -⟩ := Reading.andThen_eq_done.mp hread
      exact (follows_byte _).bind_breaks
        ((Payload.needs_blob hbs).bind_pure part missing hpart hmissing)
    | remote p =>
      rw [bytes, List.cons_append, List.cons.injEq] at hpart
      obtain ⟨rfl, hpart⟩ := hpart
      rw [reading] at hread
      obtain ⟨path, hpath, -⟩ := Reading.andThen_eq_done.mp hread
      exact (follows_byte _).bind_breaks
        ((Payload.needs_reference hpath).bind_pure part missing hpart hmissing)

/-- The decoder breaks off in the pairs of a table that it would read without a fault. -/
theorem breaks_pairs (ps : List (Term f × Term f)) {budget depth : Nat}
    {vs : List (Value × Value)} {part missing : List UInt8}
    (hread : pairsReading depth ps = .done vs) (hpart : part ++ missing = pairsBytes ps)
    (hmissing : missing ≠ []) (hbudget : 2 * part.length + 2 ≤ budget) :
    Breaks (Reader.pairs f budget depth) part := by
  obtain ⟨n, rfl⟩ : ∃ n, budget = n + 1 := ⟨budget - 1, by omega⟩
  rw [Reader.pairs]
  cases ps with
  | nil =>
    have hempty : part = [] := by
      cases part with
      | nil => rfl
      | cons b part => simp_all [pairsBytes]
    subst hempty
    obtain ⟨m, rfl⟩ : ∃ m, n = m + 1 := ⟨n - 1, by simp at hbudget; omega⟩
    rw [Reader.item]
    exact breaks_byte.bind.bind
  | cons p ps =>
    obtain ⟨k, v⟩ := p
    rw [pairsReading] at hread
    obtain ⟨key, hkey, hread⟩ := Reading.andThen_eq_done.mp hread
    obtain ⟨value, hvalue, hread⟩ := Reading.andThen_eq_done.mp hread
    obtain ⟨rest, hrest, -⟩ := Reading.andThen_eq_done.mp hread
    have hkpos := k.length_bytes_pos
    have hvpos := v.length_bytes_pos
    rw [pairsBytes] at hpart
    rcases append_eq_append_cases hpart with ⟨left, hleft, hk⟩ | ⟨second, rfl, hsecond⟩
    · exact (breaks_item k hkey hk hleft (by omega)).bind
    · rw [List.length_append] at hbudget
      have hkreads := k.follows_item n depth (by omega)
      rw [hkey] at hkreads
      refine hkreads.bind_breaks ?_
      rcases append_eq_append_cases hsecond with ⟨left, hleft, hv⟩ | ⟨third, rfl, hthird⟩
      · exact (breaks_item v hvalue hv hleft (by omega)).bind
      · rw [List.length_append] at hbudget
        have hvreads := v.follows_item n depth (by omega)
        rw [hvalue] at hvreads
        refine hvreads.bind_breaks ?_
        exact (breaks_pairs ps hrest hthird hmissing (by omega)).bind

end

/-- A value is read from nothing less than its term. -/
theorem needs_value (t : Term f) {v : Value} (hread : t.reading 0 = .done v) :
    Needs (Reader.value f) t.bytes := by
  intro part missing hpart hmissing input after later e hin hmeets
  have hsize := hin.length_le_size
  have hitem : Breaks (Reader.item f (2 * input.size + 1) 0) part :=
    t.breaks_item hread hpart hmissing (by omega)
  exact hitem.bind (k := alone) input after later e hin hmeets

end Term

end RemoteCall
