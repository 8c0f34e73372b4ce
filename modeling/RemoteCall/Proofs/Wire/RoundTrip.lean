import RemoteCall.Proofs.Text.Utf8
import RemoteCall.Proofs.Wire.Reading

/-!
# Round trips of values

What the encoder sends is a term of the grammar, and the decoder reads that term as the value with
its numbers narrowed to the format. A refused value leaves a strict beginning of a term on the line.
So encodings can be read one by one out of any stream, and nothing that follows an encoding can make
it look like the encoding of another value.
-/

namespace RemoteCall

namespace Value

mutual

/-- The value with every number as the other side of the format sees it. -/
def quantise (f : Format) : Value → Value
  | .nil => .nil
  | .boolean b => .boolean b
  | .number n => .number (f.quantise n.value)
  | .string bytes => .string bytes
  | .table pairs => .table (quantisePairs f pairs)
  | .blob bytes => .blob bytes
  | .remote path => .remote path

/-- Keys and values with every number as the other side of the format sees it. -/
def quantisePairs (f : Format) : List (Value × Value) → List (Value × Value)
  | [] => []
  | (k, v) :: rest => (quantise f k, quantise f v) :: quantisePairs f rest

end

end Value

namespace Emission

variable {a b c : Emission} {whole more : List UInt8} {p q : Prop}

/-- The emission is these bytes, and then the property holds; or it fails before their end. -/
inductive Begins : Emission → List UInt8 → Prop → Prop where
  | whole (bytes : List UInt8) {p : Prop} (holds : p) : Begins ⟨bytes, none⟩ bytes p
  | part (bytes : List UInt8) (e : Error) {missing : List UInt8} {p : Prop}
    (nonempty : missing ≠ []) : Begins ⟨bytes, some e⟩ (bytes ++ missing) p

/-- Emissions in a row can be grouped in any way. -/
theorem append_assoc (a b c : Emission) : a ++ b ++ c = a ++ (b ++ c) := by
  obtain ⟨xs, failure⟩ := a
  cases failure with
  | some e => rfl
  | none =>
    obtain ⟨ys, failure⟩ := b
    cases failure with
    | some e => rfl
    | none =>
      change (⟨xs ++ ys ++ c.bytes, c.failure⟩ : Emission) = ⟨xs ++ (ys ++ c.bytes), c.failure⟩
      rw [List.append_assoc]

/-- An emission that fails at once is the beginning of anything. -/
theorem begins_fail (e : Error) (h : whole ≠ []) : (fail e).Begins whole p := .part [] e h

/-- Emissions in a row begin the bytes in a row, and are whole when both are. -/
theorem Begins.append (ha : a.Begins whole p) (hb : b.Begins more q) :
    (a ++ b).Begins (whole ++ more) (p ∧ q) := by
  cases ha with
  | whole _ hp =>
    cases hb with
    | whole _ hq => exact .whole (whole ++ more) ⟨hp, hq⟩
    | part bytes e hne =>
      rw [← List.append_assoc]
      exact .part (whole ++ bytes) e hne
  | part bytes e hne =>
    rw [List.append_assoc]
    exact .part bytes e (by simp [hne])

/-- What makes an emission whole may be said more weakly. -/
theorem Begins.imp (h : a.Begins whole p) (hpq : p → q) : a.Begins whole q := by
  cases h with
  | whole _ hp => exact .whole whole (hpq hp)
  | part bytes e hne => exact .part bytes e hne

/-- Without a failure the emission is complete. -/
theorem Begins.of_none (h : a.Begins whole p) (ha : a.failure = none) :
    a.bytes = whole ∧ p := by
  cases h with
  | whole _ hp => exact ⟨rfl, hp⟩
  | part bytes e hne => nomatch ha

/-- With a failure something of the whole is missing. -/
theorem Begins.of_some {e : Error} (h : a.Begins whole p) (ha : a.failure = some e) :
    ∃ missing, missing ≠ [] ∧ a.bytes ++ missing = whole := by
  cases h with
  | whole _ hp => nomatch ha
  | part bytes e hne => exact ⟨_, hne, rfl⟩

/-- A byte in front is sent before anything can fail. -/
theorem Begins.cons (h : a.Begins whole p) (first : UInt8) :
    (byte first ++ a).Begins (first :: whole) p :=
  ((Begins.whole [first] trivial).append h).imp And.right

/-- A byte string is sent as a payload that is read back, or refused before its length. -/
theorem string_begins (f : Format) (bytes : List UInt8) :
    ∃ payload : Payload,
      (string f bytes).Begins (payload.wire f) (payload.reading = .done bytes) := by
  by_cases h : maxString < bytes.length
  · refine ⟨.empty, ?_⟩
    simp only [string, h, ↓reduceIte]
    refine begins_fail _ fun hempty => ?_
    have hlength := congrArg List.length hempty
    simp [Payload.wire] at hlength
  · have hlimit : maxString < UInt32.size := by decide
    refine ⟨⟨bytes, by omega⟩, ?_⟩
    simp only [string, Payload.wire, Payload.reading, h, ↓reduceIte]
    exact .whole _ trivial

end Emission

namespace Term

variable {f : Format}

open Emission

mutual

/-- The encoder sends a term that reads as the value in the format, or a strict beginning of one. -/
theorem value_begins (hf : f.isSupported = true) (depth : Nat) (v : Value) :
    ∃ t : Term f, (Emission.value f depth v).Begins t.bytes
      (t.reading depth = .done (v.quantise f)) := by
  cases v with
  | nil =>
    refine ⟨.nil, ?_⟩
    rw [Emission.value, bytes, reading, Value.quantise]
    exact .whole _ rfl
  | boolean b =>
    refine ⟨.boolean (if b then 1 else 0), ?_⟩
    rw [Emission.value, bytes, reading, Value.quantise]
    refine .whole _ ?_
    cases b <;> rfl
  | number n =>
    refine ⟨.number (f.numberBytes n.value) (Format.length_numberBytes hf _), ?_⟩
    rw [Emission.value, bytes, reading, Value.quantise]
    exact .whole _ rfl
  | string bs =>
    obtain ⟨p, hp⟩ := string_begins f bs
    refine ⟨.string p, ?_⟩
    rw [Emission.value, bytes, reading, Value.quantise]
    refine (hp.cons _).imp fun hread => ?_
    rw [hread, Reading.done_andThen]
  | table ps =>
    rw [Emission.value]
    by_cases hdepth : maxDepth ≤ depth
    · refine ⟨.nil, ?_⟩
      simp only [hdepth, ↓reduceIte]
      exact begins_fail _ (by simp [bytes])
    · obtain ⟨qs, hqs⟩ := entries_begin hf (depth + 1) ps
      refine ⟨.table qs, ?_⟩
      simp only [hdepth, ↓reduceIte, bytes, reading, Value.quantise]
      refine (hqs.cons _).imp fun hread => ?_
      rw [hread, Reading.done_andThen]
  | blob bs =>
    obtain ⟨p, hp⟩ := string_begins f bs
    refine ⟨.blob p, ?_⟩
    rw [Emission.value, bytes, reading, Value.quantise, Payload.blobReading]
    have hmark : (Emission.tag .blobEnd).Begins [Tag.blobEnd.toByte] True := .whole _ trivial
    refine (((hp.append hmark).cons _).cons _).imp fun hread => ?_
    rw [hread.1, Reading.done_andThen, Reading.done_andThen]
  | remote path =>
    obtain ⟨p, hp⟩ := string_begins f (Text.bytes path)
    refine ⟨.remote p, ?_⟩
    rw [Emission.value, bytes, reading, Value.quantise, Payload.referenceReading]
    refine (hp.cons _).imp fun hread => ?_
    rw [hread, Reading.done_andThen, Text.decode?_bytes, Reading.done_andThen]

/-- The encoder sends the pairs of a table and their end mark, or a strict beginning of them. -/
theorem entries_begin (hf : f.isSupported = true) (depth : Nat) (ps : List (Value × Value)) :
    ∃ qs : List (Term f × Term f),
      (Emission.entries f depth ps ++ Emission.tag .tableEnd).Begins (pairsBytes qs)
        (pairsReading depth qs = .done (Value.quantisePairs f ps)) := by
  cases ps with
  | nil =>
    refine ⟨[], ?_⟩
    rw [Emission.entries, pairsBytes, pairsReading, Value.quantisePairs]
    exact .whole _ rfl
  | cons p rest =>
    obtain ⟨k, v⟩ := p
    obtain ⟨key, hkey⟩ := value_begins hf depth k
    obtain ⟨value, hvalue⟩ := value_begins hf depth v
    obtain ⟨qs, hqs⟩ := entries_begin hf depth rest
    refine ⟨(key, value) :: qs, ?_⟩
    rw [Emission.entries, append_assoc, append_assoc, pairsBytes, pairsReading,
      Value.quantisePairs]
    refine (hkey.append (hvalue.append hqs)).imp fun hread => ?_
    obtain ⟨hk, hv, hrest⟩ := hread
    rw [hk, Reading.done_andThen, hv, Reading.done_andThen, hrest, Reading.done_andThen]

end

/-- The encoding of a value is a term that reads as the value in the format. -/
theorem exists_of_encode (hf : f.isSupported = true) {v : Value}
    (hv : (v.encode f).failure = none) :
    ∃ t : Term f, t.bytes = (v.encode f).bytes ∧ t.reading 0 = .done (v.quantise f) := by
  obtain ⟨t, ht⟩ := value_begins hf 0 v
  obtain ⟨hbytes, hread⟩ := ht.of_none hv
  exact ⟨t, hbytes.symm, hread⟩

end Term

namespace Reader

/-- That many values. -/
def values (f : Format) : Nat → Reader (List Value)
  | 0 => return []
  | count + 1 => do
    let first ← value f
    return first :: (← values f count)

/-- The decoder reads back an encoding and nothing behind it. -/
theorem follows_encode {f : Format} (hf : f.isSupported = true) {v : Value}
    (hv : (v.encode f).failure = none) :
    Follows (value f) (v.encode f).bytes (.done (v.quantise f)) := by
  obtain ⟨t, hbytes, hread⟩ := Term.exists_of_encode hf hv
  rw [← hbytes, ← hread]
  exact t.follows_value

/-- Encodings one after another are read back one by one. -/
theorem follows_encodes {f : Format} (hf : f.isSupported = true) (vs : List Value)
    (hvs : ∀ v ∈ vs, (v.encode f).failure = none) :
    Follows (values f vs.length) (vs.flatMap fun v => (v.encode f).bytes)
      (.done (vs.map (Value.quantise f))) := by
  induction vs with
  | nil => exact follows_pure _
  | cons v vs ih =>
    have hfirst := follows_encode hf (hvs v (List.mem_cons_self ..))
    have hrest := ih fun w hw => hvs w (List.mem_cons_of_mem _ hw)
    rw [List.length_cons, values, List.flatMap_cons, List.map_cons]
    refine hfirst.bind_done ?_
    exact hrest.bind_pure (g := fun rest => .done (v.quantise f :: rest)) fun rest _ =>
      follows_pure _

end Reader

namespace Value

/-- The decoder undoes the encoder inside any stream, however the stream is cut: it gives the value
in the format and leaves what follows, a row of encodings gives the row of values, and encodings
before anything at all coincide only if the values in the format and the remainders do. -/
theorem decode_undoes_encode (f : Format) (hf : f.isSupported = true) :
    (∀ (v : Value) (input : Inbound) (rest : List UInt8) (after : List Arrival),
      (v.encode f).failure = none → input.Brings ((v.encode f).bytes ++ rest) after →
        ∃ later, Reader.value f input = (.ok (v.quantise f), later) ∧
          later.Brings rest after) ∧
    (∀ (vs : List Value) (input : Inbound) (rest : List UInt8) (after : List Arrival),
      (∀ v ∈ vs, (v.encode f).failure = none) →
      input.Brings ((vs.flatMap fun v => (v.encode f).bytes) ++ rest) after →
        ∃ later, Reader.values f vs.length input = (.ok (vs.map (quantise f)), later) ∧
          later.Brings rest after) ∧
    (∀ (v w : Value) (rest rest' : List UInt8),
      (v.encode f).failure = none → (w.encode f).failure = none →
      (v.encode f).bytes ++ rest = (w.encode f).bytes ++ rest' →
        v.quantise f = w.quantise f ∧ rest = rest') := by
  refine ⟨?_, ?_, ?_⟩
  · intro v input rest after hv hin
    exact Reader.follows_encode hf hv input rest after hin
  · intro vs input rest after hvs hin
    exact Reader.follows_encodes hf vs hvs input rest after hin
  · intro v w rest rest' hv hw heq
    obtain ⟨t, ht, hreadv⟩ := Term.exists_of_encode hf hv
    obtain ⟨u, hu, hreadw⟩ := Term.exists_of_encode hf hw
    rw [← ht, ← hu] at heq
    obtain ⟨rfl, hrest⟩ := t.bytes_append_inj u heq
    rw [hreadv] at hreadw
    exact ⟨Reading.done.inj hreadw, hrest⟩

/-- In a narrow format a half is lost inside a table, and the end marks behind the encoding stay on
the line. -/
theorem decode_undoes_encode_narrow :
    ∃ later, Reader.value ⟨false, 2, .integer⟩
        (.ofBytes ([4, 1, 0, 1, 4, 3, 0, 0, 0, 1, 97, 1, 0, 2, 5, 5] ++ [5, 5])) =
          (.ok (.table [(integer 1, .table [(ofText "a", integer 2)])]), later) ∧
      later.Brings [5, 5] [] := by
  have hone : Format.quantise ⟨false, 2, .integer⟩ (.ofInt 1) = ⟨.ofInt 1, .integer⟩ := by
    decide +kernel
  have hhalf : Format.quantise ⟨false, 2, .integer⟩ ⟨0x4004000000000000⟩ =
      ⟨.ofInt 2, .integer⟩ := by
    decide +kernel
  have hbytes : (encode ⟨false, 2, .integer⟩
      (.table [(integer 1, .table [(ofText "a", float ⟨0x4004000000000000⟩)])])).bytes =
        [4, 1, 0, 1, 4, 3, 0, 0, 0, 1, 97, 1, 0, 2, 5, 5] := by
    decide +kernel
  have h := (decode_undoes_encode ⟨false, 2, .integer⟩ (by decide)).1
    (.table [(integer 1, .table [(ofText "a", float ⟨0x4004000000000000⟩)])]) _ [5, 5] []
    (by decide +kernel) (Inbound.brings_ofBytes _)
  rw [hbytes] at h
  simp only [quantise, quantisePairs, integer, float, ofText, hone, hhalf] at h
  exact h

end Value

end RemoteCall
