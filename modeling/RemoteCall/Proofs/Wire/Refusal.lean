import RemoteCall.Proofs.Conversation
import RemoteCall.Proofs.Wire.Cut
import RemoteCall.Proofs.Wire.RoundTrip

/-!
# Refused values

The encoder streams, so what it has sent of a value that it refuses in the end stays on the line.
The decoder cannot take that for a value: the encoder refuses a length before it sends it and a
table before its tag, at the depth at which the decoder would refuse it too, so that the decoder
finds no fault in what is there and waits for the rest.
-/

namespace RemoteCall

open Reader

variable {f : Format}

namespace Emission

variable {a b : Emission} {e : Error}

/-- The failure of emissions in a row is that of the first, or that of the second behind a first
that is whole. -/
theorem append_failure_eq_some :
    (a ++ b).failure = some e ↔ a.failure = some e ∨ a.failure = none ∧ b.failure = some e := by
  obtain ⟨bytes, failure⟩ := a
  cases failure with
  | none => exact ⟨fun h => .inr ⟨rfl, h⟩, fun h => h.elim nofun And.right⟩
  | some e' => exact ⟨.inl, fun h => h.elim id fun h => nomatch h.1⟩

/-- A mark behind an emission is never what is refused. -/
theorem failure_of_mark {t : Tag} (h : (a ++ tag t).failure = some e) : a.failure = some e := by
  rcases append_failure_eq_some.mp h with h | ⟨-, h⟩
  · exact h
  · exact nomatch h

/-- A byte string is refused before its length. -/
theorem bytes_string_of_refused {bs : List UInt8} (hrefused : (string f bs).failure = some e) :
    (string f bs).bytes = [] := by
  unfold string at hrefused ⊢
  by_cases hsize : maxString < bs.length
  · simp only [hsize, ↓reduceIte]
    rfl
  · simp only [hsize, ↓reduceIte] at hrefused
    exact nomatch hrefused

/-- A value that is not refused has at least one byte. -/
theorem length_pos (hf : f.isSupported = true) {v : Value} {depth : Nat}
    (hv : (value f depth v).failure = none) : 0 < (value f depth v).bytes.length := by
  obtain ⟨t, ht⟩ := Term.value_begins hf depth v
  rw [(ht.of_none hv).1]
  exact t.length_bytes_pos

/-- A value that is sent as a whole is read as a value. -/
theorem follows_item (hf : f.isSupported = true) {v : Value} {budget depth : Nat}
    (hv : (value f depth v).failure = none)
    (hbudget : 2 * (value f depth v).bytes.length ≤ budget) :
    Follows (Reader.item f budget depth) (value f depth v).bytes
      (.done (.value (v.quantise f))) := by
  obtain ⟨t, ht⟩ := Term.value_begins hf depth v
  obtain ⟨hbytes, hread⟩ := ht.of_none hv
  rw [hbytes] at hbudget ⊢
  have hfollows := t.follows_item budget depth hbudget
  rw [hread] at hfollows
  exact hfollows

mutual

/-- The decoder breaks off in what is sent of a value that is refused. -/
theorem breaks_item (hf : f.isSupported = true) (v : Value) {budget depth : Nat}
    (hrefused : (value f depth v).failure = some e)
    (hbudget : 2 * (value f depth v).bytes.length + 1 ≤ budget) :
    Breaks (Reader.item f budget depth) (value f depth v).bytes := by
  obtain ⟨n, rfl⟩ : ∃ n, budget = n + 1 := ⟨budget - 1, by omega⟩
  rw [Reader.item]
  cases v with
  | nil => rw [value] at hrefused; exact nomatch hrefused
  | boolean b => rw [value] at hrefused; exact nomatch hrefused
  | number x => rw [value] at hrefused; exact nomatch hrefused
  | string bs =>
    rw [value] at hrefused ⊢
    have hnothing : (string f bs).bytes = [] := bytes_string_of_refused hrefused
    change Breaks _ ([Tag.string.toByte] ++ (string f bs).bytes)
    rw [hnothing]
    exact (follows_byte _).bind_breaks breaks_string.bind
  | table ps =>
    rw [value] at hrefused hbudget ⊢
    by_cases hdepth : maxDepth ≤ depth
    · simp only [hdepth, ↓reduceIte]
      exact breaks_byte.bind
    · simp only [hdepth, ↓reduceIte] at hrefused hbudget ⊢
      have hentries : (entries f (depth + 1) ps).failure = some e := failure_of_mark hrefused
      rw [append_of_failure hentries] at hbudget ⊢
      change 2 * ([Tag.table.toByte] ++ (entries f (depth + 1) ps).bytes).length + 1 ≤ n + 1
        at hbudget
      change Breaks _ ([Tag.table.toByte] ++ (entries f (depth + 1) ps).bytes)
      rw [List.length_append, List.length_singleton] at hbudget
      exact (follows_byte _).bind_breaks (breaks_pairs hf ps hentries (by omega)).bind
  | blob bs =>
    rw [value] at hrefused ⊢
    have hstring : (string f bs).failure = some e := failure_of_mark hrefused
    rw [append_of_failure hstring]
    change Breaks _ ([Tag.blob.toByte] ++ ([Tag.string.toByte] ++ (string f bs).bytes))
    rw [bytes_string_of_refused hstring]
    refine (follows_byte _).bind_breaks (Breaks.bind (x := Reader.blob f) ?_)
    exact (follows_byte Tag.string.toByte).bind_breaks breaks_string.bind
  | remote path =>
    rw [value] at hrefused ⊢
    have hnothing : (text f path).bytes = [] := bytes_string_of_refused hrefused
    change Breaks _ ([Tag.remote.toByte] ++ (text f path).bytes)
    rw [hnothing]
    exact (follows_byte _).bind_breaks (Breaks.bind (x := Reader.reference f) breaks_string.bind)

/-- The decoder breaks off in what is sent of pairs that are refused. -/
theorem breaks_pairs (hf : f.isSupported = true) (ps : List (Value × Value)) {budget depth : Nat}
    (hrefused : (entries f depth ps).failure = some e)
    (hbudget : 2 * (entries f depth ps).bytes.length + 2 ≤ budget) :
    Breaks (Reader.pairs f budget depth) (entries f depth ps).bytes := by
  obtain ⟨n, rfl⟩ : ∃ n, budget = n + 1 := ⟨budget - 1, by omega⟩
  rw [Reader.pairs]
  cases ps with
  | nil => rw [entries] at hrefused; exact nomatch hrefused
  | cons p rest =>
    obtain ⟨k, v⟩ := p
    rw [entries] at hrefused hbudget ⊢
    rcases append_failure_eq_some.mp hrefused with hkey | ⟨hkey, hafter⟩
    · rw [append_of_failure hkey] at hbudget ⊢
      exact (breaks_item hf k hkey (by omega)).bind
    · rw [append_bytes hkey, List.length_append] at hbudget
      rw [append_bytes hkey]
      refine (follows_item hf hkey (by omega)).bind_breaks ?_
      have hpos := length_pos hf hkey
      rcases append_failure_eq_some.mp hafter with hvalue | ⟨hvalue, hrest⟩
      · rw [append_of_failure hvalue] at hbudget ⊢
        exact (breaks_item hf v hvalue (by omega)).bind
      · rw [append_bytes hvalue, List.length_append] at hbudget
        rw [append_bytes hvalue]
        refine (follows_item hf hvalue (by omega)).bind_breaks ?_
        exact (breaks_pairs hf rest hrest (by omega)).bind

end

end Emission

/-- What is sent of a value that is refused is not read as a value. -/
theorem Reader.breaks_encode (hf : f.isSupported = true) {v : Value} {e : Error}
    (hrefused : (v.encode f).failure = some e) : Breaks (Reader.value f) (v.encode f).bytes := by
  intro input after later e' hin hmeets
  have hsize := hin.length_le_size
  have hitem : Breaks (Reader.item f (2 * input.size + 1) 0) (v.encode f).bytes :=
    Emission.breaks_item hf v hrefused (by rw [Value.encode] at hsize; omega)
  exact hitem.bind (k := alone) input after later e' hin hmeets

end RemoteCall
