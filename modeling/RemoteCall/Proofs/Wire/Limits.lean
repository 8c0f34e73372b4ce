import RemoteCall.Proofs.Conversation
import RemoteCall.Proofs.Wire.Decoding
import RemoteCall.Proofs.Wire.Severity

/-!
# Limits on both sides

Were there no limits, every value would have an encoding. The encoder sends a strict beginning of it
when a limit is in the way, and the decoder, given the whole of it, stops with the same error: they
go through the value in one order and count the tables around a key or value alike, and where the
encoder refuses a size or a table before it goes out, the decoder refuses it once it has come in.
Neither limit has to do with the format, so what has been read can be sent on in any.
-/

namespace RemoteCall

namespace Value

mutual

/-- The most tables that are nested in one another along a chain of keys and values. -/
def nesting : Value → Nat
  | .table pairs => nestingPairs pairs + 1
  | .nil | .boolean _ | .number _ | .string _ | .blob _ | .remote _ => 0

/-- The deepest nesting among keys and values. -/
def nestingPairs : List (Value × Value) → Nat
  | [] => 0
  | (k, v) :: rest => max (max (nesting k) (nesting v)) (nestingPairs rest)

end

mutual

/-- The sizes of all strings, blobs and references, in reading order. -/
def sizes : Value → List Nat
  | .string bytes => [bytes.length]
  | .table pairs => sizesPairs pairs
  | .blob bytes => [bytes.length]
  | .remote path => [(Text.bytes path).length]
  | .nil | .boolean _ | .number _ => []

/-- The sizes in keys and values. -/
def sizesPairs : List (Value × Value) → List Nat
  | [] => []
  | (k, v) :: rest => sizes k ++ (sizes v ++ sizesPairs rest)

end

/-- A payload behind its length, whatever its size. -/
def payloadWire (f : Format) (bytes : List UInt8) : List UInt8 :=
  f.wordBytes (UInt32.ofNat bytes.length) ++ bytes

mutual

/-- The tag encoding of a value, whatever its sizes and its depth. -/
def wire (f : Format) : Value → List UInt8
  | .nil => [Tag.nil.toByte]
  | .boolean b => [Tag.boolean.toByte, if b then 1 else 0]
  | .number n => Tag.number.toByte :: f.numberBytes n.value
  | .string bytes => Tag.string.toByte :: payloadWire f bytes
  | .table pairs => Tag.table.toByte :: wirePairs f pairs
  | .blob bytes =>
    Tag.blob.toByte :: Tag.string.toByte :: (payloadWire f bytes ++ [Tag.blobEnd.toByte])
  | .remote path => Tag.remote.toByte :: payloadWire f (Text.bytes path)

/-- The tag encoding of the pairs of a table and of its end mark. -/
def wirePairs (f : Format) : List (Value × Value) → List UInt8
  | [] => [Tag.tableEnd.toByte]
  | (k, v) :: rest => wire f k ++ (wire f v ++ wirePairs f rest)

end

end Value

/-! ### The same refusals -/

namespace Emission

variable {α β : Type} {a b : Emission} {whole more : List UInt8} {r : Reading α}

/-- Of bytes that are read without a fault all are sent, and of others a strict beginning, with the
very error at which the reader stops. -/
inductive Tallies : Emission → List UInt8 → Reading α → Prop where
  | whole (bytes : List UInt8) (x : α) : Tallies ⟨bytes, none⟩ bytes (.done x)
  | part (bytes : List UInt8) (e : Error) (left : List UInt8) {missing : List UInt8}
    (nonempty : missing ≠ []) : Tallies ⟨bytes, some e⟩ (bytes ++ missing) (.stop e left)

/-- Emissions in a row tally with readings in a row. -/
theorem Tallies.append {k : α → Reading β} (ha : a.Tallies whole r)
    (hb : ∀ x, r = .done x → b.Tallies more (k x)) (left : List UInt8) :
    (a ++ b).Tallies (whole ++ more) (r.andThen left k) := by
  cases ha with
  | whole _ x =>
    have hsecond := hb x rfl
    rw [Reading.done_andThen]
    generalize k x = s at hsecond
    cases hsecond with
    | whole _ y => exact .whole (whole ++ more) y
    | part bytes e rest hne =>
      rw [← List.append_assoc]
      exact .part (whole ++ bytes) e rest hne
  | part bytes e rest hne =>
    rw [List.append_assoc]
    exact .part bytes e (rest ++ left) (by simp [hne])

/-- What the reader makes of its result without a fault needs no more bytes. -/
theorem Tallies.andThen {k : α → Reading β} (ha : a.Tallies whole r)
    (hk : ∀ x, r = .done x → ∃ y, k x = .done y) : a.Tallies whole (r.andThen [] k) := by
  cases ha with
  | whole _ x =>
    obtain ⟨y, hy⟩ := hk x rfl
    rw [Reading.done_andThen, hy]
    exact .whole whole y
  | part bytes e rest hne => exact .part bytes e (rest ++ []) hne

/-- What is made of the result of a reading does not change the tally. -/
theorem Tallies.map (ha : a.Tallies whole r) (g : α → β) :
    a.Tallies whole (r.andThen [] fun x => .done (g x)) :=
  ha.andThen fun x _ => ⟨g x, rfl⟩

/-- A byte in front is sent before anything can fail. -/
theorem Tallies.cons (ha : a.Tallies whole r) (first : UInt8) :
    (byte first ++ a).Tallies (first :: whole) r :=
  (Tallies.whole [first] ()).append (k := fun _ => r) (fun _ _ => ha) []

/-- With a failure something of the whole is missing, and the reader stops with it. -/
theorem Tallies.of_some {e : Error} (ha : a.Tallies whole r) (hfailure : a.failure = some e) :
    (∃ missing, missing ≠ [] ∧ a.bytes ++ missing = whole) ∧ ∃ left, r = .stop e left := by
  cases ha with
  | whole _ x => exact nomatch hfailure
  | part bytes e' left hne =>
    cases hfailure
    exact ⟨⟨_, hne, rfl⟩, left, rfl⟩

/-- Without a failure the emission is complete. -/
theorem Tallies.bytes_eq (ha : a.Tallies whole r) (hnone : a.failure = none) : a.bytes = whole := by
  cases ha with
  | whole _ x => rfl
  | part bytes e left hne => exact nomatch hnone

/-- A payload is refused for its size on both sides. -/
theorem string_tallies (f : Format) (p : Payload) :
    (string f p.bytes).Tallies (p.wire f) p.reading := by
  by_cases h : maxString < p.bytes.length
  · simp only [string, Payload.reading, h, ↓reduceIte]
    refine Tallies.part [] _ _ fun hempty => ?_
    have hlength := congrArg List.length hempty
    simp at hlength
  · simp only [string, Payload.reading, h, ↓reduceIte]
    exact .whole _ _

/-- The text of a reference is also read back. -/
theorem string_tallies_reference (f : Format) {p : Payload} {path : String}
    (hp : p.bytes = Text.bytes path) :
    (string f p.bytes).Tallies (p.wire f) p.referenceReading := by
  refine (string_tallies f p).andThen fun bs hbs => ⟨path, ?_⟩
  obtain ⟨-, rfl⟩ := Payload.reading_eq_done.mp hbs
  rw [hp, Text.decode?_bytes]

end Emission

namespace Term

variable {f : Format}

open Emission

mutual

/-- The encoding of a value is a term, which is read at any depth as far as the value is sent
there. -/
theorem exists_tallies (hf : f.isSupported = true) (v : Value)
    (hv : ∀ n ∈ v.sizes, n < UInt32.size) :
    ∃ t : Term f, t.bytes = v.wire f ∧
      ∀ depth, (Emission.value f depth v).Tallies t.bytes (t.reading depth) := by
  cases v with
  | nil =>
    refine ⟨.nil, by rw [bytes, Value.wire], fun depth => ?_⟩
    rw [Emission.value, bytes, reading]
    exact .whole _ _
  | boolean b =>
    refine ⟨.boolean (if b then 1 else 0), by rw [bytes, Value.wire], fun depth => ?_⟩
    rw [Emission.value, bytes, reading]
    exact .whole _ _
  | number n =>
    refine ⟨.number (f.numberBytes n.value) (Format.length_numberBytes hf _),
      by rw [bytes, Value.wire], fun depth => ?_⟩
    rw [Emission.value, bytes, reading]
    exact .whole _ _
  | string bs =>
    obtain ⟨p, rfl⟩ : ∃ p : Payload, p.bytes = bs := ⟨⟨bs, hv _ (by simp [Value.sizes])⟩, rfl⟩
    refine ⟨.string p, by rw [bytes, Value.wire]; rfl, fun depth => ?_⟩
    rw [Emission.value, bytes, reading]
    exact ((string_tallies f p).map _).cons _
  | table ps =>
    rw [Value.sizes] at hv
    obtain ⟨qs, hbytes, htallies⟩ := exists_pairs_tally hf ps hv
    refine ⟨.table qs, by rw [bytes, Value.wire, hbytes], fun depth => ?_⟩
    rw [Emission.value, bytes, reading]
    by_cases hdepth : maxDepth ≤ depth
    · simp only [hdepth, ↓reduceIte]
      exact Tallies.part [] _ _ (List.cons_ne_nil _ _)
    · simp only [hdepth, ↓reduceIte]
      exact ((htallies (depth + 1)).map _).cons _
  | blob bs =>
    obtain ⟨p, rfl⟩ : ∃ p : Payload, p.bytes = bs := ⟨⟨bs, hv _ (by simp [Value.sizes])⟩, rfl⟩
    refine ⟨.blob p, by rw [bytes, Value.wire]; rfl, fun depth => ?_⟩
    rw [Emission.value, bytes, reading, Payload.blobReading]
    have hmark := (string_tallies f p).append (b := Emission.tag Tag.blobEnd) (k := .done)
      (fun x _ => .whole [Tag.blobEnd.toByte] x) [Tag.blobEnd.toByte]
    exact ((hmark.map _).cons _).cons _
  | remote path =>
    obtain ⟨p, hp⟩ : ∃ p : Payload, p.bytes = Text.bytes path :=
      ⟨⟨Text.bytes path, hv _ (by simp [Value.sizes])⟩, rfl⟩
    refine ⟨.remote p, by rw [bytes, Value.wire, ← hp]; rfl, fun depth => ?_⟩
    rw [Emission.value, bytes, reading, Emission.text, ← hp]
    exact ((string_tallies_reference f hp).map _).cons _

/-- So are the pairs of a table and their end mark. -/
theorem exists_pairs_tally (hf : f.isSupported = true) (ps : List (Value × Value))
    (hps : ∀ n ∈ Value.sizesPairs ps, n < UInt32.size) :
    ∃ qs : List (Term f × Term f), pairsBytes qs = Value.wirePairs f ps ∧
      ∀ depth, (Emission.entries f depth ps ++ Emission.tag .tableEnd).Tallies (pairsBytes qs)
        (pairsReading depth qs) := by
  cases ps with
  | nil =>
    refine ⟨[], by rw [pairsBytes, Value.wirePairs], fun depth => ?_⟩
    rw [Emission.entries, pairsBytes, pairsReading]
    exact .whole _ _
  | cons p rest =>
    obtain ⟨k, v⟩ := p
    rw [Value.sizesPairs, List.forall_mem_append, List.forall_mem_append] at hps
    obtain ⟨key, hkeyBytes, hkey⟩ := exists_tallies hf k hps.1
    obtain ⟨value, hvalueBytes, hvalue⟩ := exists_tallies hf v hps.2.1
    obtain ⟨qs, hbytes, hpairs⟩ := exists_pairs_tally hf rest hps.2.2
    refine ⟨(key, value) :: qs, ?_, fun depth => ?_⟩
    · rw [pairsBytes, Value.wirePairs, hkeyBytes, hvalueBytes, hbytes]
    · rw [Emission.entries, append_assoc, append_assoc, pairsBytes, pairsReading]
      exact (hkey depth).append (fun _ _ => (hvalue depth).append
        (fun _ _ => (hpairs depth).map _) _) _

end

end Term

/-! ### The limits -/

namespace Emission

/-- A string is sent exactly when it is no longer than the limit. -/
theorem string_failure_eq_none {f : Format} {bytes : List UInt8} :
    (string f bytes).failure = none ↔ bytes.length ≤ maxString := by
  by_cases h : maxString < bytes.length
  · simp [string, h, fail, Nat.not_le_of_lt h]
  · simp only [string, h, ↓reduceIte]
    exact iff_of_true rfl (Nat.le_of_not_lt h)

mutual

/-- Inside tables that are not too many, a value is sent as a whole just if it keeps to both
limits. -/
theorem value_failure_eq_none (f : Format) {depth : Nat} (hdepth : depth ≤ maxDepth) (v : Value) :
    (value f depth v).failure = none ↔
      depth + v.nesting ≤ maxDepth ∧ ∀ n ∈ v.sizes, n ≤ maxString := by
  cases v with
  | nil =>
    rw [value, Value.nesting, Value.sizes]
    simp [tag, byte, ofBytes, hdepth]
  | boolean b =>
    rw [value, Value.nesting, Value.sizes, append_failure_eq_none]
    simp [tag, byte, ofBytes, hdepth]
  | number n =>
    rw [value, Value.nesting, Value.sizes, append_failure_eq_none]
    simp [tag, byte, number, ofBytes, hdepth]
  | string bytes =>
    rw [value, Value.nesting, Value.sizes, append_failure_eq_none, string_failure_eq_none]
    simp [tag, byte, ofBytes, hdepth]
  | table pairs =>
    rw [value, Value.nesting, Value.sizes]
    by_cases hfull : maxDepth ≤ depth
    · simp only [hfull, ↓reduceIte, fail, reduceCtorEq, false_iff, not_and]
      omega
    · have hplace : depth + (Value.nestingPairs pairs + 1) =
          depth + 1 + Value.nestingPairs pairs := by omega
      simp only [hfull, ↓reduceIte, append_failure_eq_none]
      rw [entries_failure_eq_none f (by omega) pairs, hplace]
      simp [tag, byte, ofBytes]
  | blob bytes =>
    rw [value, Value.nesting, Value.sizes, append_failure_eq_none, append_failure_eq_none,
      append_failure_eq_none, string_failure_eq_none]
    simp [tag, byte, ofBytes, hdepth]
  | remote path =>
    rw [value, Value.nesting, Value.sizes, append_failure_eq_none, text, string_failure_eq_none]
    simp [tag, byte, ofBytes, hdepth]

/-- So are pairs. -/
theorem entries_failure_eq_none (f : Format) {depth : Nat} (hdepth : depth ≤ maxDepth)
    (ps : List (Value × Value)) :
    (entries f depth ps).failure = none ↔
      depth + Value.nestingPairs ps ≤ maxDepth ∧ ∀ n ∈ Value.sizesPairs ps, n ≤ maxString := by
  cases ps with
  | nil =>
    rw [entries, Value.nestingPairs, Value.sizesPairs]
    simp [ofBytes, hdepth]
  | cons p rest =>
    obtain ⟨k, v⟩ := p
    rw [entries, Value.nestingPairs, Value.sizesPairs, append_failure_eq_none,
      append_failure_eq_none, value_failure_eq_none f hdepth k, value_failure_eq_none f hdepth v,
      entries_failure_eq_none f hdepth rest, List.forall_mem_append, List.forall_mem_append,
      ← Nat.add_max_add_left, ← Nat.add_max_add_left, Nat.max_le, Nat.max_le]
    constructor
    · rintro ⟨⟨hkey, hkeySizes⟩, ⟨hvalue, hvalueSizes⟩, hrest, hrestSizes⟩
      exact ⟨⟨⟨hkey, hvalue⟩, hrest⟩, hkeySizes, hvalueSizes, hrestSizes⟩
    · rintro ⟨⟨⟨hkey, hvalue⟩, hrest⟩, hkeySizes, hvalueSizes, hrestSizes⟩
      exact ⟨⟨hkey, hkeySizes⟩, ⟨hvalue, hvalueSizes⟩, hrest, hrestSizes⟩

end

end Emission

namespace Value

/-- A value is sent as a whole just if it keeps to both limits, whatever the format. -/
theorem encode_failure_eq_none {f : Format} {v : Value} :
    (v.encode f).failure = none ↔ v.nesting ≤ maxDepth ∧ ∀ n ∈ v.sizes, n ≤ maxString := by
  rw [encode, Emission.value_failure_eq_none f (Nat.zero_le _), Nat.zero_add]

/-- What has been read keeps to the limits. -/
theorem encode_of_value {f : Format} (hf : f.isSupported = true) {input later : Inbound}
    {w : Value} (h : Reader.value f input = (.ok w, later)) (g : Format) :
    (w.encode g).failure = none := by
  obtain ⟨-, -, t, -, hread⟩ := Reader.yields_value f input later w h
  obtain ⟨u, hwritten, -⟩ := t.exists_rewritten hf (t.reading_eq_done.mp hread)
  have hsame : (w.encode f).failure = none := congrArg Emission.failure hwritten
  exact encode_failure_eq_none.mpr (encode_failure_eq_none.mp hsame)

/-- Encoder and decoder enforce the same limits at the same place, on all values whose sizes can be
written as lengths. A value without too deep tables and too large payloads, and no other, is sent as
its encoding, which is read back. Of any other value a strict beginning of the encoding is sent
before an error that is not fatal, and the decoder fails on the encoding with this very error,
whatever comes behind it. Nothing comes out of the decoder that could not be sent on. -/
theorem limits_agree (f : Format) (hf : f.isSupported = true) (v : Value)
    (hv : ∀ n ∈ v.sizes, n < UInt32.size) :
    ((v.encode f).failure = none ↔ v.nesting ≤ maxDepth ∧ ∀ n ∈ v.sizes, n ≤ maxString) ∧
    ((v.encode f).failure = none → (v.encode f).bytes = v.wire f ∧
      ∀ (input : Inbound) (rest : List UInt8) (after : List Arrival),
        input.Brings (v.wire f ++ rest) after →
          ∃ later, Reader.value f input = (.ok (v.quantise f), later) ∧ later.Brings rest after) ∧
    (∀ e : Error, (v.encode f).failure = some e →
      (∃ violation, e = .protocol violation) ∧ e.severity = .nonFatal ∧
      (∃ missing, missing ≠ [] ∧ (v.encode f).bytes ++ missing = v.wire f) ∧
      ∀ (input : Inbound) (rest : List UInt8) (after : List Arrival),
        input.Brings (v.wire f ++ rest) after →
          ∃ later, Reader.value f input = (.error e, later)) ∧
    ∀ (input later : Inbound) (w : Value), Reader.value f input = (.ok w, later) →
      ∀ g : Format, (w.encode g).failure = none := by
  obtain ⟨t, hwire, htallies⟩ := Term.exists_tallies hf v hv
  have htallies : (v.encode f).Tallies t.bytes (t.reading 0) := htallies 0
  rw [← hwire]
  refine ⟨encode_failure_eq_none, fun hnone => ?_, fun e hfailure => ?_, ?_⟩
  · have hbytes := htallies.bytes_eq hnone
    have hfollows := Reader.follows_encode hf hnone
    rw [hbytes] at hfollows
    exact ⟨hbytes, hfollows⟩
  · have hmild := Emission.mild_value f 0 v
    obtain ⟨hpart, left, hread⟩ := htallies.of_some hfailure
    have hfollows := t.follows_value
    rw [hread] at hfollows
    refine ⟨hmild e hfailure, hmild.nonFatal hfailure, hpart, fun input rest after hin => ?_⟩
    obtain ⟨later, hrun, -⟩ := hfollows input rest after hin
    exact ⟨later, hrun⟩
  · intro input later w h g
    exact encode_of_value hf h g

/-- This many tables, each the key of the table around it. -/
def keyed : Nat → Value
  | 0 => .nil
  | depth + 1 => .table [(keyed depth, .boolean true)]

@[simp] theorem nesting_keyed (depth : Nat) : (keyed depth).nesting = depth := by
  induction depth with
  | zero => rw [keyed, nesting]
  | succ depth ih => simp [keyed, nesting, nestingPairs, ih]

@[simp] theorem sizes_keyed (depth : Nat) : (keyed depth).sizes = [] := by
  induction depth with
  | zero => rw [keyed, sizes]
  | succ depth ih => simp [keyed, sizes, sizesPairs, ih]

/-- As many tables as there may be, each the key of the next one, are sent. One more is refused
behind the tags of all the others, and so it is on the other side. -/
theorem limits_agree_keyed :
    ((keyed 64).encode .host).failure = none ∧
    ((keyed 65).encode .host).failure = some (.protocol .tooDeep) ∧
    ((keyed 65).encode .host).bytes = List.replicate 64 Tag.table.toByte ∧
    ∃ later, Reader.value .host (.ofBytes ((keyed 65).wire .host ++ [7])) =
      (.error (.protocol .tooDeep), later) := by
  have hfailure : ((keyed 65).encode .host).failure = some (.protocol .tooDeep) := by
    decide +kernel
  have hfits := (limits_agree .host (by decide) (keyed 64) (by simp)).1
  have hdecode := ((limits_agree .host (by decide) (keyed 65) (by simp)).2.2.1 _ hfailure).2.2.2
  refine ⟨hfits.mpr ⟨?_, by simp⟩, hfailure, by decide +kernel,
    hdecode _ [7] [] (Inbound.brings_ofBytes _)⟩
  rw [nesting_keyed]
  decide

end Value

end RemoteCall
