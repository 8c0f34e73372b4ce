import RemoteCall.Proofs.Wire.Cut
import RemoteCall.Proofs.Wire.Rejected

/-!
# Truncated values

How many bytes the decoder takes for a value is settled by a term at the beginning of the bytes. A
beginning that holds the whole term gives the same value, whatever else was cut off. A shorter one
is a strict beginning of the term, and there the decoder finds no fault before it finds the end: the
end of the stream is all that it can report, however much the bytes up to the cut look like a whole
value or table.
-/

namespace RemoteCall.Reader

variable {f : Format} {bytes : List UInt8} {input later : Inbound} {v : Value}

/-- Of a line that brings these bytes and nothing else, a value is taken as the term at their
beginning. -/
theorem exists_term_of_value (hin : input.Brings bytes []) (h : value f input = (.ok v, later)) :
    ∃ (t : Term f) (rest : List UInt8), t.bytes ++ rest = bytes ∧ t.reading 0 = .done v ∧
      later.Brings rest [] := by
  obtain ⟨taken, hflow, t, rfl, hread⟩ := yields_value f input later v h
  obtain ⟨front, rest, rfl, hlater⟩ := (judges_value f).accepts hin h
  -- The term is what the flow has lost, and so are the bytes in front of the rest.
  rw [hin.flow_eq, hlater.flow_eq, ← List.append_assoc, ← List.map_append] at hflow
  have hbytes : front ++ rest = t.bytes ++ rest :=
    (List.map_inj_right fun _ _ => Find.byte.inj).mp (List.append_cancel_right hflow)
  exact ⟨t, rest, hbytes.symm, hread, hlater⟩

/-- A strict beginning of a term that is read without a fault comes to the end of the stream. -/
theorem value_of_take_lt {t : Term f} (hread : t.reading 0 = .done v) {m : Nat}
    (hm : m < t.bytes.length) {cut : Inbound} (hcut : cut.Brings (t.bytes.take m) []) :
    value f cut = (.error .eof, ⟨[], []⟩) := by
  have hmissing : t.bytes.drop m ≠ [] := fun hnone =>
    Nat.not_le_of_lt hm (List.drop_eq_nil_iff.mp hnone)
  have hbreaks : Breaks (value f) (t.bytes.take m) :=
    t.needs_value hread _ _ (List.take_append_drop m t.bytes) hmissing
  exact hbreaks cut [] [] .eof hcut .ending

/-- Where the decoder takes a value off the first bytes of a byte string, truncating the byte string
is always seen. With any byte of the value missing the decoder meets the end of the stream, and with
none of them missing it takes the same bytes for the same value. -/
theorem value_truncated (f : Format) (bytes : List UInt8) (input later : Inbound) (v : Value)
    (hin : input.Brings bytes []) (h : value f input = (.ok v, later)) :
    ∃ n, 0 < n ∧ n ≤ bytes.length ∧ later.Brings (bytes.drop n) [] ∧
      (∀ m, m < n → ∀ cut : Inbound, cut.Brings (bytes.take m) [] →
        value f cut = (.error .eof, ⟨[], []⟩)) ∧
      ∀ m, n ≤ m → ∀ cut : Inbound, cut.Brings (bytes.take m) [] →
        ∃ left, value f cut = (.ok v, left) ∧ left.Brings ((bytes.take m).drop n) [] := by
  obtain ⟨t, rest, rfl, hread, hlater⟩ := exists_term_of_value hin h
  refine ⟨t.bytes.length, t.length_bytes_pos, ?_, ?_, ?_, ?_⟩
  · rw [List.length_append]
    exact Nat.le_add_right _ _
  · rwa [List.drop_left]
  · intro m hm cut hcut
    rw [List.take_append_of_le_length (Nat.le_of_lt hm)] at hcut
    exact value_of_take_lt hread hm hcut
  · intro m hm cut hcut
    obtain ⟨k, rfl⟩ := Nat.exists_eq_add_of_le hm
    have hfront : (t.bytes ++ rest).take (t.bytes.length + k) = t.bytes ++ rest.take k :=
      List.take_length_add_append k
    rw [hfront] at hcut ⊢
    rw [List.drop_left]
    have hfollows := t.follows_value
    rw [hread] at hfollows
    exact hfollows cut (rest.take k) [] hcut

/-- A table with a blob in it and a byte behind it. Up to the last byte but one the bytes of the
table hold a whole key and a whole value, and still they are not taken for anything. -/
theorem value_truncated_blob :
    (∃ later, value .host (.ofBytes [4, 2, 7, 6, 3, 1, 0, 0, 0, 5, 7, 5, 0]) =
      (.ok (.table [(.boolean true, .blob [5])]), later) ∧ later.Brings [0] []) ∧
    value .host (.ofBytes [4, 2, 7, 6, 3, 1, 0, 0, 0, 5, 7]) = (.error .eof, ⟨[], []⟩) := by
  have hread : value .host (.ofBytes [4, 2, 7, 6, 3, 1, 0, 0, 0, 5, 7, 5, 0]) =
      (.ok (.table [(.boolean true, .blob [5])]), ⟨[0], []⟩) := rfl
  obtain ⟨n, -, hle, hlater, hcut, -⟩ := value_truncated _ _ _ _ _ (Inbound.brings_ofBytes _) hread
  have hlength := congrArg List.length (hlater.unique (Inbound.brings_held _))
  rw [List.length_drop] at hlength
  simp only [List.length_cons, List.length_nil] at hlength
  have hn : 11 < n := by omega
  exact ⟨⟨_, hread, Inbound.brings_held _⟩, hcut 11 hn _ (Inbound.brings_ofBytes _)⟩

end RemoteCall.Reader
