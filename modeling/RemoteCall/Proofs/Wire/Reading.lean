import RemoteCall.Proofs.Wire.Grammar

/-!
# Reading terms

What a reader makes of a term: its value, or the first violation in reading order and all that
stands behind it. The decoder follows this reading at every depth, and twice the length of the term
is budget enough.
-/

namespace RemoteCall

open Reader

variable {f : Format}

/-- A length is read back. -/
theorem Reader.follows_word (v : UInt32) : Follows (Reader.word f) (f.wordBytes v) (.done v) := by
  have h := (follows_take (f.wordBytes v)).bind_pure
    (k := fun bs => pure (f.wordOf bs)) (g := fun bs => .done (f.wordOf bs))
    fun bs _ => follows_pure _
  rw [Format.length_wordBytes, Reading.done_andThen, Format.wordOf_wordBytes] at h
  exact h

/-- A number is read from as many bytes as the format is wide. -/
theorem Reader.follows_number {bs : List UInt8} (h : bs.length = f.width.toNat) :
    Follows (Reader.number f) bs (.done ⟨f.numberOf bs, f.kind⟩) := by
  have hread := (follows_take bs).bind_pure
    (k := fun bs => pure (⟨f.numberOf bs, f.kind⟩ : Number))
    (g := fun bs => .done ⟨f.numberOf bs, f.kind⟩) fun bs _ => follows_pure _
  rw [h] at hread
  exact hread

/-- A byte string with its length is read as such. -/
theorem Payload.follows_string (p : Payload) :
    Follows (Reader.string f) (p.wire f) p.reading := by
  refine (follows_word _).bind_done ?_
  rw [reading, p.toNat_length]
  by_cases h : maxString < p.bytes.length
  · simp only [h, ↓reduceIte]
    exact (follows_throw _ _).bind_stop
  · simp only [h, ↓reduceIte]
    exact follows_take p.bytes

/-- The text of a reference. -/
def Payload.referenceReading (p : Payload) : Reading String :=
  p.reading.andThen [] fun bs =>
    match Text.decode? bs with
    | some path => .done path
    | none => .stop (.protocol .remoteNotText) []

/-- A reference is read of its payload. -/
theorem Payload.follows_reference (p : Payload) :
    Follows (Reader.reference f) (p.wire f) p.referenceReading := by
  refine p.follows_string.bind_pure fun bs _ => ?_
  cases Text.decode? bs with
  | some path => exact follows_pure path
  | none => exact follows_throw _ _

/-- The payload of a blob, whose end mark is left with it when it is refused. -/
def Payload.blobReading (p : Payload) : Reading (List UInt8) :=
  p.reading.andThen [Tag.blobEnd.toByte] .done

/-- A blob is read of its payload between its tag and its end mark. -/
theorem Payload.follows_blob (p : Payload) :
    Follows (Reader.blob f) (Tag.string.toByte :: (p.wire f ++ [Tag.blobEnd.toByte]))
      p.blobReading := by
  refine (follows_byte Tag.string.toByte).bind_done ?_
  refine p.follows_string.bind fun bs _ => ?_
  refine (follows_byte Tag.blobEnd.toByte).bind_done (?_ : Follows _ [] (.done bs))
  exact follows_pure bs

/-- What an item makes that stands on its own: its value, unless it is an end marker. -/
def Reader.alone : Item → Reader Value
  | .value v => pure v
  | .mark tag => refuse (.strayEnd tag)

namespace Term

mutual

/-- What the decoder makes of a term inside `depth` tables. -/
def reading : Nat → Term f → Reading Value
  | _, .nil => .done .nil
  | _, .number bs _ => .done (.number ⟨f.numberOf bs, f.kind⟩)
  | _, .boolean b => .done (.boolean (b ≠ 0))
  | _, .string p => p.reading.andThen [] fun bs => .done (.string bs)
  | depth, .table pairs =>
    if maxDepth ≤ depth then .stop (.protocol .tooDeep) (pairsBytes pairs)
    else (pairsReading (depth + 1) pairs).andThen [] fun ps => .done (.table ps)
  | _, .blob p => p.blobReading.andThen [] fun bs => .done (.blob bs)
  | _, .remote p => p.referenceReading.andThen [] fun path => .done (.remote path)

/-- What the decoder makes of pairs and their end mark. -/
def pairsReading : Nat → List (Term f × Term f) → Reading (List (Value × Value))
  | _, [] => .done []
  | depth, (k, v) :: rest =>
    (reading depth k).andThen (v.bytes ++ pairsBytes rest) fun k =>
      (reading depth v).andThen (pairsBytes rest) fun v =>
        (pairsReading depth rest).andThen [] fun rest => .done ((k, v) :: rest)

end

mutual

/-- The decoder follows the reading of a term. -/
theorem follows_item (t : Term f) (budget depth : Nat) (hbudget : 2 * t.bytes.length ≤ budget) :
    Follows (Reader.item f budget depth) t.bytes
      ((t.reading depth).andThen [] fun v => .done (.value v)) := by
  obtain ⟨n, rfl⟩ : ∃ n, budget = n + 1 := ⟨budget - 1, by have := t.length_bytes_pos; omega⟩
  rw [Reader.item]
  cases t with
  | nil =>
    rw [bytes]
    refine (follows_byte _).bind_done (?_ : Follows _ [] _)
    exact follows_pure _
  | number bs hbs =>
    rw [bytes]
    refine (follows_byte _).bind_done ?_
    exact (follows_number hbs).bind_pure fun n _ => follows_pure _
  | boolean b =>
    rw [bytes]
    refine (follows_byte _).bind_done ?_
    exact (follows_byte b).bind_pure fun n _ => follows_pure _
  | string p =>
    rw [bytes, reading, Reading.andThen_assoc]
    refine (follows_byte _).bind_done ?_
    exact p.follows_string.bind_pure fun bs _ => follows_pure _
  | table ps =>
    rw [bytes] at hbudget ⊢
    rw [List.length_cons] at hbudget
    refine (follows_byte _).bind_done ?_
    rw [reading]
    by_cases hdepth : maxDepth ≤ depth
    · simp only [Tag.ofByte?_toByte, hdepth, ↓reduceIte, Reading.stop_andThen, List.append_nil]
      exact (follows_throw _ _).bind_stop
    · simp only [Tag.ofByte?_toByte, hdepth, ↓reduceIte, Reading.andThen_assoc]
      have hpairs := follows_pairs ps n (depth + 1) (by omega)
      exact hpairs.bind_pure fun qs _ => follows_pure _
  | blob p =>
    rw [bytes, reading, Reading.andThen_assoc]
    refine (follows_byte _).bind_done ?_
    exact p.follows_blob.bind_pure fun bs _ => follows_pure _
  | remote p =>
    rw [bytes, reading, Reading.andThen_assoc]
    refine (follows_byte _).bind_done ?_
    exact p.follows_reference.bind_pure fun path _ => follows_pure _

/-- The decoder follows the reading of pairs up to their end mark. -/
theorem follows_pairs (ps : List (Term f × Term f)) (budget depth : Nat)
    (hbudget : 2 * (pairsBytes ps).length ≤ budget) :
    Follows (Reader.pairs f budget depth) (pairsBytes ps) (pairsReading depth ps) := by
  obtain ⟨n, rfl⟩ : ∃ n, budget = n + 1 :=
    ⟨budget - 1, by have := length_pairsBytes_pos ps; omega⟩
  rw [Reader.pairs]
  cases ps with
  | nil =>
    rw [pairsBytes] at hbudget ⊢
    rw [List.length_singleton] at hbudget
    obtain ⟨m, rfl⟩ : ∃ m, n = m + 1 := ⟨n - 1, by omega⟩
    have hmark : Follows (Reader.item f (m + 1) depth) [Tag.tableEnd.toByte]
        (.done (.mark .tableEnd)) := by
      rw [Reader.item]
      refine (follows_byte _).bind_done (?_ : Follows _ [] _)
      exact follows_pure _
    refine hmark.bind_done (?_ : Follows _ [] _)
    exact follows_pure _
  | cons p ps =>
    obtain ⟨k, v⟩ := p
    rw [pairsBytes] at hbudget ⊢
    simp only [List.length_append] at hbudget
    have hposition := k.length_bytes_pos
    have hmark := length_pairsBytes_pos ps
    have hk := follows_item k n depth (by omega)
    have hv := follows_item v n depth (by omega)
    have hps := follows_pairs ps n depth (by omega)
    rw [pairsReading]
    cases hkey : k.reading depth with
    | stop e left =>
      rw [hkey, Reading.stop_andThen, List.append_nil] at hk
      exact hk.bind_stop_append
    | done key =>
      rw [hkey] at hk
      refine hk.bind_done ?_
      cases hvalue : v.reading depth with
      | stop e left =>
        rw [hvalue, Reading.stop_andThen, List.append_nil] at hv
        exact hv.bind_stop_append
      | done value =>
        rw [hvalue] at hv
        refine hv.bind_done ?_
        exact hps.bind_pure fun qs _ => follows_pure _

end

/-- A value is read from a term as the term says. -/
theorem follows_value (t : Term f) : Follows (Reader.value f) t.bytes (t.reading 0) := by
  intro input rest after hin
  have hsize := hin.length_le_size
  rw [List.length_append] at hsize
  have hitem := t.follows_item (2 * input.size + 1) 0 (by omega)
  have hvalue : Follows (Reader.item f (2 * input.size + 1) 0 >>= Reader.alone) t.bytes
      (t.reading 0) := by
    cases hreading : t.reading 0 with
    | done v =>
      rw [hreading] at hitem
      exact hitem.bind_pure (g := fun _ => .done v) fun _ ha => by
        cases ha
        exact follows_pure v
    | stop e left =>
      rw [hreading, Reading.stop_andThen, List.append_nil] at hitem
      exact hitem.bind_stop
  exact hvalue input rest after hin

end Term

/-- No byte string is read from nothing. -/
theorem Reader.breaks_string : Breaks (Reader.string f) [] := (breaks_take (by decide)).bind.bind

/-- No value is read from nothing. -/
theorem Reader.breaks_value : Breaks (Reader.value f) [] := by
  intro input after later e hin hmeets
  have hitem : Breaks (Reader.item f (2 * input.size + 1) 0) [] := by
    rw [Reader.item]
    exact breaks_byte.bind
  exact hitem.bind (k := alone) input after later e hin hmeets

end RemoteCall
