import RemoteCall.Proofs.Wire.Accepted
import RemoteCall.Proofs.Wire.Numbers
import RemoteCall.Proofs.Wire.Rejected
import RemoteCall.Proofs.Wire.RoundTrip

/-!
# The language of the decoder

A term denotes a value when its payloads keep to the limit, its tables are not nested too deeply and
its references are text. The decoder accepts just the byte strings that begin with a term that
denotes a value, takes that term and leaves the rest. The encoder writes the value as a term of the
same length, which denotes the same value. It differs where the value does not tell how it was
written: in the bytes of booleans, and in numbers as far as their format allows.
-/

namespace RemoteCall

open Reader

namespace Term

mutual

/-- The value that a term denotes inside `depth` tables. -/
inductive Denotes {f : Format} : Nat → Term f → Value → Prop where
  | nil (depth : Nat) : Denotes depth .nil .nil
  | number (depth : Nat) (bytes : List UInt8) (h : bytes.length = f.width.toNat) :
    Denotes depth (.number bytes h) (.number ⟨f.numberOf bytes, f.kind⟩)
  | boolean (depth : Nat) (b : UInt8) : Denotes depth (.boolean b) (.boolean (b ≠ 0))
  | string (depth : Nat) (p : Payload) (h : p.bytes.length ≤ maxString) :
    Denotes depth (.string p) (.string p.bytes)
  | table (depth : Nat) (ps : List (Term f × Term f)) (vs : List (Value × Value))
    (hdepth : depth < maxDepth) (hpairs : PairsDenote (depth + 1) ps vs) :
    Denotes depth (.table ps) (.table vs)
  | blob (depth : Nat) (p : Payload) (h : p.bytes.length ≤ maxString) :
    Denotes depth (.blob p) (.blob p.bytes)
  | remote (depth : Nat) (p : Payload) (path : String) (h : p.bytes.length ≤ maxString)
    (htext : p.bytes = Text.bytes path) : Denotes depth (.remote p) (.remote path)

/-- The keys and values that the pairs of a table denote, in order. -/
inductive PairsDenote {f : Format} :
    Nat → List (Term f × Term f) → List (Value × Value) → Prop where
  | nil (depth : Nat) : PairsDenote depth [] []
  | cons (depth : Nat) (k v : Term f) (ps : List (Term f × Term f)) (key value : Value)
    (vs : List (Value × Value)) (hkey : Denotes depth k key) (hvalue : Denotes depth v value)
    (hpairs : PairsDenote depth ps vs) : PairsDenote depth ((k, v) :: ps) ((key, value) :: vs)

end

mutual

/-- How a term can differ from the one that is written for the same value. -/
inductive Rewritten {f : Format} : Term f → Term f → Prop where
  | nil : Rewritten .nil .nil
  | number (bytes later : List UInt8) (h : bytes.length = f.width.toNat)
    (hlater : later.length = f.width.toNat) (hbytes : f.Rewritten bytes later) :
    Rewritten (.number bytes h) (.number later hlater)
  /-- True is written as one. -/
  | boolean (b : UInt8) : Rewritten (.boolean b) (.boolean (if b = 0 then 0 else 1))
  | string (p : Payload) : Rewritten (.string p) (.string p)
  | table (ps qs : List (Term f × Term f)) (hpairs : PairsRewritten ps qs) :
    Rewritten (.table ps) (.table qs)
  | blob (p : Payload) : Rewritten (.blob p) (.blob p)
  | remote (p : Payload) : Rewritten (.remote p) (.remote p)

/-- Pairs differ key by key and value by value. -/
inductive PairsRewritten {f : Format} : List (Term f × Term f) → List (Term f × Term f) → Prop where
  | nil : PairsRewritten [] []
  | cons (k k' v v' : Term f) (ps qs : List (Term f × Term f)) (hkey : Rewritten k k')
    (hvalue : Rewritten v v') (hpairs : PairsRewritten ps qs) :
    PairsRewritten ((k, v) :: ps) ((k', v') :: qs)

end

end Term

/-- A payload is read when it is no longer than the limit, and then as it is. -/
theorem Payload.reading_eq_done {p : Payload} {bytes : List UInt8} :
    p.reading = .done bytes ↔ p.bytes.length ≤ maxString ∧ bytes = p.bytes := by
  unfold reading
  by_cases h : maxString < p.bytes.length
  · simp [h, Nat.not_le_of_lt h]
  · simp [h, Nat.le_of_not_lt h, eq_comm]

/-- A payload is read as a reference when it is no longer than the limit and spells a text. -/
theorem Payload.referenceReading_eq_done {p : Payload} {path : String} :
    p.referenceReading = .done path ↔
      p.bytes.length ≤ maxString ∧ p.bytes = Text.bytes path := by
  rw [referenceReading, Reading.andThen_eq_done]
  constructor
  · rintro ⟨bytes, hread, h⟩
    obtain ⟨hlength, rfl⟩ := Payload.reading_eq_done.mp hread
    cases htext : Text.decode? p.bytes with
    | none =>
      rw [htext] at h
      cases h
    | some dotted =>
      rw [htext] at h
      cases h
      exact ⟨hlength, Text.decode?_eq_some.mp htext⟩
  · rintro ⟨hlength, htext⟩
    refine ⟨p.bytes, Payload.reading_eq_done.mpr ⟨hlength, rfl⟩, ?_⟩
    rw [Text.decode?_eq_some.mpr htext]

namespace Term

variable {f : Format}

mutual

/-- What a term denotes is read of it, and nothing else. -/
theorem reading_eq_done (t : Term f) {depth : Nat} {v : Value} :
    t.reading depth = .done v ↔ t.Denotes depth v := by
  cases t with
  | nil =>
    rw [reading]
    constructor
    · rintro ⟨⟩
      exact .nil depth
    · rintro ⟨⟩
      rfl
  | number bytes hbytes =>
    rw [reading]
    constructor
    · rintro ⟨⟩
      exact .number depth bytes hbytes
    · rintro ⟨⟩
      rfl
  | boolean b =>
    rw [reading]
    constructor
    · rintro ⟨⟩
      exact .boolean depth b
    · rintro ⟨⟩
      rfl
  | string p =>
    rw [reading, Reading.andThen_eq_done]
    constructor
    · rintro ⟨bytes, hread, ⟨⟩⟩
      obtain ⟨hlength, rfl⟩ := Payload.reading_eq_done.mp hread
      exact .string depth p hlength
    · intro h
      cases h with
      | string _ _ hlength =>
        exact ⟨p.bytes, Payload.reading_eq_done.mpr ⟨hlength, rfl⟩, rfl⟩
  | table ps =>
    rw [reading]
    by_cases hdepth : maxDepth ≤ depth
    · rw [if_pos hdepth]
      constructor
      · rintro ⟨⟩
      · intro h
        cases h with
        | table _ _ _ hless _ => exact absurd hless (Nat.not_lt_of_le hdepth)
    · rw [if_neg hdepth, Reading.andThen_eq_done]
      constructor
      · rintro ⟨vs, hread, ⟨⟩⟩
        exact .table depth ps vs (Nat.lt_of_not_le hdepth) ((pairsReading_eq_done ps).mp hread)
      · intro h
        cases h with
        | table _ _ vs _ hpairs => exact ⟨vs, (pairsReading_eq_done ps).mpr hpairs, rfl⟩
  | blob p =>
    rw [reading, Reading.andThen_eq_done]
    constructor
    · rintro ⟨bytes, hread, ⟨⟩⟩
      obtain ⟨body, hbody, ⟨⟩⟩ := Reading.andThen_eq_done.mp hread
      obtain ⟨hlength, rfl⟩ := Payload.reading_eq_done.mp hbody
      exact .blob depth p hlength
    · intro h
      cases h with
      | blob _ _ hlength =>
        have hbody := Payload.reading_eq_done.mpr ⟨hlength, rfl⟩
        exact ⟨p.bytes, Reading.andThen_eq_done.mpr ⟨p.bytes, hbody, rfl⟩, rfl⟩
  | remote p =>
    rw [reading, Reading.andThen_eq_done]
    constructor
    · rintro ⟨path, hread, ⟨⟩⟩
      obtain ⟨hlength, htext⟩ := Payload.referenceReading_eq_done.mp hread
      exact .remote depth p path hlength htext
    · intro h
      cases h with
      | remote _ _ path hlength htext =>
        exact ⟨path, Payload.referenceReading_eq_done.mpr ⟨hlength, htext⟩, rfl⟩

/-- So it is for the pairs of a table. -/
theorem pairsReading_eq_done (ps : List (Term f × Term f)) {depth : Nat}
    {vs : List (Value × Value)} :
    pairsReading depth ps = .done vs ↔ PairsDenote depth ps vs := by
  cases ps with
  | nil =>
    rw [pairsReading]
    constructor
    · rintro ⟨⟩
      exact .nil depth
    · rintro ⟨⟩
      rfl
  | cons p ps =>
    obtain ⟨k, v⟩ := p
    rw [pairsReading, Reading.andThen_eq_done]
    constructor
    · rintro ⟨key, hkey, h⟩
      obtain ⟨value, hvalue, h⟩ := Reading.andThen_eq_done.mp h
      obtain ⟨rest, hrest, ⟨⟩⟩ := Reading.andThen_eq_done.mp h
      exact .cons depth k v ps key value rest ((reading_eq_done k).mp hkey)
        ((reading_eq_done v).mp hvalue) ((pairsReading_eq_done ps).mp hrest)
    · intro h
      cases h with
      | cons _ _ _ _ key value rest hkey hvalue hpairs =>
        refine ⟨key, (reading_eq_done k).mpr hkey, Reading.andThen_eq_done.mpr ?_⟩
        refine ⟨value, (reading_eq_done v).mpr hvalue, Reading.andThen_eq_done.mpr ?_⟩
        exact ⟨rest, (pairsReading_eq_done ps).mpr hpairs, rfl⟩

end

end Term

/-! ### Writing back -/

namespace Emission

/-- A payload within the limit is written behind its length. -/
theorem string_payload (f : Format) {p : Payload} (h : p.bytes.length ≤ maxString) :
    string f p.bytes = ofBytes (p.wire f) := by
  unfold string
  dsimp only
  rw [if_neg (Nat.not_lt_of_le h)]
  rfl

end Emission

namespace Term

variable {f : Format}

mutual

/-- What a term denotes is written as such a term again. -/
theorem exists_rewritten (hf : f.isSupported = true) (t : Term f) {depth : Nat} {v : Value}
    (h : t.Denotes depth v) :
    ∃ u : Term f, Emission.value f depth v = .ofBytes u.bytes ∧ t.Rewritten u ∧
      u.Denotes depth v := by
  cases h with
  | nil =>
    refine ⟨.nil, ?_, .nil, .nil depth⟩
    rw [Emission.value, bytes]
    rfl
  | number _ bs hbs =>
    -- The bytes may have changed, but the number that is read of them has not.
    have hlength := Format.length_numberBytes hf (f.numberOf bs)
    have hsame := Format.numberOf_numberBytes_numberOf hf hbs
    refine ⟨.number (f.numberBytes (f.numberOf bs)) hlength, ?_,
      .number bs _ hbs hlength (Format.rewritten_numberBytes hf hbs), ?_⟩
    · rw [Emission.value, bytes]
      rfl
    · have hdenotes := Denotes.number depth (f.numberBytes (f.numberOf bs)) hlength
      rwa [hsame] at hdenotes
  | boolean _ b =>
    refine ⟨.boolean (if b = 0 then 0 else 1), ?_, .boolean b, ?_⟩
    · rw [Emission.value, bytes]
      by_cases hb : b = 0 <;> simp [hb] <;> rfl
    · have hdenotes := Denotes.boolean (f := f) depth (if b = 0 then 0 else 1)
      by_cases hb : b = 0 <;> simpa [hb] using hdenotes
  | string _ p hlength =>
    refine ⟨.string p, ?_, .string p, .string depth p hlength⟩
    rw [Emission.value, Emission.string_payload f hlength, bytes]
    rfl
  | table _ ps vs hdepth hpairs =>
    obtain ⟨qs, hbytes, hrewritten, hdenote⟩ := exists_pairsRewritten hf ps hpairs
    refine ⟨.table qs, ?_, .table ps qs hrewritten, .table depth qs vs hdepth hdenote⟩
    rw [Emission.value, if_neg (Nat.not_le_of_lt hdepth), hbytes, bytes]
    rfl
  | blob _ p hlength =>
    refine ⟨.blob p, ?_, .blob p, .blob depth p hlength⟩
    rw [Emission.value, Emission.string_payload f hlength, bytes]
    rfl
  | remote _ p path hlength htext =>
    refine ⟨.remote p, ?_, .remote p, .remote depth p path hlength htext⟩
    rw [Emission.value, Emission.text, ← htext, Emission.string_payload f hlength, bytes]
    rfl

/-- What pairs denote is written as such pairs and their end mark. -/
theorem exists_pairsRewritten (hf : f.isSupported = true) (ps : List (Term f × Term f))
    {depth : Nat} {vs : List (Value × Value)} (h : PairsDenote depth ps vs) :
    ∃ qs : List (Term f × Term f),
      Emission.entries f depth vs ++ Emission.tag .tableEnd = .ofBytes (pairsBytes qs) ∧
        PairsRewritten ps qs ∧ PairsDenote depth qs vs := by
  cases h with
  | nil =>
    refine ⟨[], ?_, .nil, .nil depth⟩
    rw [Emission.entries, pairsBytes]
    rfl
  | cons _ k v ps key value vs hkey hvalue hpairs =>
    obtain ⟨k', hkeyBytes, hkeyRewritten, hkeyDenotes⟩ := exists_rewritten hf k hkey
    obtain ⟨v', hvalueBytes, hvalueRewritten, hvalueDenotes⟩ := exists_rewritten hf v hvalue
    obtain ⟨qs, hbytes, hrewritten, hdenote⟩ := exists_pairsRewritten hf ps hpairs
    refine ⟨(k', v') :: qs, ?_, .cons k k' v v' ps qs hkeyRewritten hvalueRewritten hrewritten,
      .cons depth k' v' qs key value vs hkeyDenotes hvalueDenotes hdenote⟩
    rw [Emission.entries, Emission.append_assoc, Emission.append_assoc, hbytes, hkeyBytes,
      hvalueBytes, pairsBytes]
    rfl

end

mutual

/-- A term that is written for another one is as long. -/
theorem Rewritten.length_eq {t u : Term f} (h : t.Rewritten u) :
    u.bytes.length = t.bytes.length := by
  cases h with
  | nil => rfl
  | number bs later hbs hlater _ =>
    rw [bytes, bytes, List.length_cons, List.length_cons, hbs, hlater]
  | boolean b => rw [bytes, bytes]; rfl
  | string p => rfl
  | table ps qs hpairs =>
    rw [bytes, bytes, List.length_cons, List.length_cons, hpairs.length_eq]
  | blob p => rfl
  | remote p => rfl

/-- Pairs that are rewritten take as many bytes as before. -/
theorem PairsRewritten.length_eq {ps qs : List (Term f × Term f)} (h : PairsRewritten ps qs) :
    (pairsBytes qs).length = (pairsBytes ps).length := by
  cases h with
  | nil => rfl
  | cons k k' v v' ps qs hkey hvalue hpairs =>
    simp only [pairsBytes, List.length_append, hkey.length_eq, hvalue.length_eq, hpairs.length_eq]

end

end Term

namespace Reader

/-- The decoder accepts just its language. Of a line that brings these bytes and nothing else it
takes a term at their beginning that denotes the value, and leaves what stands behind the term; no
such term is rejected, and no other term stands at the beginning of the bytes. A value that a term
denotes is written as a term of the same length that differs from the first one only in how it
spells booleans and numbers, and from which the value is read again. Bytes are rejected because they
end, because they violate the protocol, or for the last byte that was read, which is above all
tags. -/
theorem value_accepts_grammar (f : Format) (hf : f.isSupported = true) (bytes : List UInt8)
    (input : Inbound) (hin : input.Brings bytes []) :
    (∀ (v : Value) (later : Inbound), value f input = (.ok v, later) →
      ∃ (t : Term f) (rest : List UInt8), t.bytes ++ rest = bytes ∧ t.Denotes 0 v ∧
        later.Brings rest []) ∧
    (∀ (t : Term f) (v : Value) (rest : List UInt8), t.bytes ++ rest = bytes → t.Denotes 0 v →
      ∃ later, value f input = (.ok v, later) ∧ later.Brings rest []) ∧
    (∀ (t u : Term f) (rest rest' : List UInt8), t.bytes ++ rest = bytes →
      u.bytes ++ rest' = bytes → t = u ∧ rest = rest') ∧
    (∀ (t : Term f) (v : Value), t.Denotes 0 v →
      ∃ u : Term f, v.encode f = .ofBytes u.bytes ∧ u.bytes.length = t.bytes.length ∧
        t.Rewritten u ∧ ∀ (again : Inbound) (rest : List UInt8), again.Brings (u.bytes ++ rest) [] →
          ∃ later, value f again = (.ok v, later) ∧ later.Brings rest []) ∧
    (∀ (e : Error) (later : Inbound), value f input = (.error e, later) →
      Rejection bytes e later) := by
  have haccepts : ∀ (t : Term f) (v : Value), t.Denotes 0 v →
      Follows (value f) t.bytes (.done v) := by
    intro t v ht
    rw [← t.reading_eq_done.mpr ht]
    exact t.follows_value
  refine ⟨?_, ?_, ?_, ?_, ?_⟩
  · intro v later h
    -- The flow says what was taken, and the bytes that are left say where it ends.
    obtain ⟨taken, hflow, t, rfl, hread⟩ := yields_value f input later v h
    obtain ⟨front, rest, rfl, hlater⟩ := (judges_value f).accepts hin h
    rw [hin.flow_eq, hlater.flow_eq, ← List.append_assoc, ← List.map_append] at hflow
    have hbytes : front ++ rest = t.bytes ++ rest :=
      (List.map_inj_right fun _ _ => Find.byte.inj).mp (List.append_cancel_right hflow)
    exact ⟨t, rest, hbytes.symm, t.reading_eq_done.mp hread, hlater⟩
  · rintro t v rest rfl ht
    exact haccepts t v ht input rest [] hin
  · intro t u rest rest' ht hu
    exact t.bytes_append_inj u (ht.trans hu.symm)
  · intro t v ht
    obtain ⟨u, hbytes, hrewritten, hu⟩ := t.exists_rewritten hf ht
    refine ⟨u, hbytes, hrewritten.length_eq, hrewritten, fun again rest hagain => ?_⟩
    exact haccepts u v hu again rest [] hagain
  · intro e later h
    exact (judges_value f).rejects hin h

/-- A key that was spelled with a seven comes back as a one, and what is no number comes back
quiet. The byte behind the table stays on the line. -/
theorem value_accepts_grammar_quiet :
    ∃ later : Inbound,
      value ⟨true, 4, .float⟩ (.ofBytes [4, 2, 7, 1, 1, 0, 128, 127, 5, 9]) =
        (.ok (.table [(.boolean true, .float ⟨0x7FF8000020000000⟩)]), later) ∧
      later.Brings [9] [] ∧
      (Value.table [(.boolean true, .float ⟨0x7FF8000020000000⟩)]).encode ⟨true, 4, .float⟩ =
        .ofBytes [4, 2, 1, 1, 1, 0, 192, 127, 5] := by
  have hnumber : Format.numberOf ⟨true, 4, .float⟩ [1, 0, 128, 127] = ⟨0x7FF8000020000000⟩ := by
    decide +kernel
  have hvalue := Term.Denotes.number (f := ⟨true, 4, .float⟩) 1 [1, 0, 128, 127] rfl
  rw [hnumber] at hvalue
  have hpairs := Term.PairsDenote.cons 1 _ _ [] _ _ [] (.boolean 1 7) hvalue (.nil 1)
  have hterm := Term.Denotes.table 0 _ _ (by decide) hpairs
  obtain ⟨later, hread, hlater⟩ := (value_accepts_grammar ⟨true, 4, .float⟩ (by decide)
    [4, 2, 7, 1, 1, 0, 128, 127, 5, 9] _ (Inbound.brings_ofBytes _)).2.1 _ _ [9] rfl hterm
  exact ⟨later, hread, hlater, by decide +kernel⟩

end Reader

end RemoteCall
