import RemoteCall.Proofs.Line.Reading
import RemoteCall.Proofs.Wire.Bytes
import RemoteCall.Wire.Decode

/-!
# The grammar of tagged values

A term is a derivation of the tag grammar: the tags balance, and every payload has the length that
stands before it. Nothing else is asked of it, so its references need not be text and its tables may
be nested as deeply as they like. No byte string that begins with a term begins with another one.
What a reader makes of a term is part of the grammar too: either a value, or the first violation in
reading order together with the bytes behind it, which nobody has read by then.
-/

namespace RemoteCall

/-- A byte string whose length fits into its four bytes. -/
structure Payload where
  bytes : List UInt8
  length_lt : bytes.length < UInt32.size

namespace Payload

variable {f : Format} {p q : Payload} {r s : List UInt8}

/-- The empty payload. -/
def empty : Payload := ⟨[], by decide⟩

/-- A payload behind its length. -/
def wire (f : Format) (p : Payload) : List UInt8 :=
  f.wordBytes (UInt32.ofNat p.bytes.length) ++ p.bytes

/-- The length of a payload is what its four bytes say. -/
theorem toNat_length (p : Payload) : (UInt32.ofNat p.bytes.length).toNat = p.bytes.length := by
  rw [UInt32.toNat_ofNat']
  exact Nat.mod_eq_of_lt p.length_lt

/-- A payload is recognised at the beginning of a byte string. -/
theorem wire_append_inj (h : p.wire f ++ r = q.wire f ++ s) : p = q ∧ r = s := by
  simp only [wire, List.append_assoc] at h
  obtain ⟨hword, hrest⟩ := List.append_inj h (by simp)
  have hlength : p.bytes.length = q.bytes.length := by
    rw [← p.toNat_length, f.wordBytes_inj.mp hword, q.toNat_length]
  obtain ⟨hbytes, htail⟩ := List.append_inj hrest hlength
  refine ⟨?_, htail⟩
  cases p
  cases q
  subst hbytes
  rfl

/-- A payload over the limit is refused once its length is read. -/
def reading (p : Payload) : Reading (List UInt8) :=
  if maxString < p.bytes.length then .stop (.protocol (.oversized p.bytes.length)) p.bytes
  else .done p.bytes

end Payload

/-- A derivation of the tag grammar in a format. -/
inductive Term (f : Format) where
  | nil
  | number (bytes : List UInt8) (length_eq : bytes.length = f.width.toNat)
  /-- Any byte but zero stands for true. -/
  | boolean (byte : UInt8)
  | string (payload : Payload)
  | table (pairs : List (Term f × Term f))
  | blob (payload : Payload)
  /-- A reference, whether or not its path is text. -/
  | remote (payload : Payload)

namespace Term

variable {f : Format}

/-- The leading tag. -/
def tag : Term f → Tag
  | .nil => .nil
  | .number .. => .number
  | .boolean _ => .boolean
  | .string _ => .string
  | .table _ => .table
  | .blob _ => .blob
  | .remote _ => .remote

mutual

/-- The bytes of a term. -/
def bytes : Term f → List UInt8
  | .nil => [Tag.nil.toByte]
  | .number bs _ => Tag.number.toByte :: bs
  | .boolean b => [Tag.boolean.toByte, b]
  | .string p => Tag.string.toByte :: p.wire f
  | .table pairs => Tag.table.toByte :: pairsBytes pairs
  | .blob p => Tag.blob.toByte :: Tag.string.toByte :: (p.wire f ++ [Tag.blobEnd.toByte])
  | .remote p => Tag.remote.toByte :: p.wire f

/-- The bytes of the pairs of a table and of its end mark. -/
def pairsBytes : List (Term f × Term f) → List UInt8
  | [] => [Tag.tableEnd.toByte]
  | (k, v) :: rest => k.bytes ++ (v.bytes ++ pairsBytes rest)

end

/-- The bytes of terms one after another. -/
def allBytes (ts : List (Term f)) : List UInt8 := ts.flatMap bytes

@[simp] theorem allBytes_nil : allBytes ([] : List (Term f)) = [] := rfl

@[simp] theorem allBytes_cons (t : Term f) (ts : List (Term f)) :
    allBytes (t :: ts) = t.bytes ++ allBytes ts := rfl

/-- A term begins with its tag. -/
theorem bytes_eq_cons (t : Term f) : ∃ rest, t.bytes = t.tag.toByte :: rest := by
  cases t <;> exact ⟨_, by rw [bytes]; rfl⟩

/-- A term has at least one byte. -/
theorem length_bytes_pos (t : Term f) : 0 < t.bytes.length := by
  obtain ⟨rest, h⟩ := t.bytes_eq_cons
  rw [h]
  exact Nat.succ_pos _

/-- Pairs have at least their end mark. -/
theorem length_pairsBytes_pos (ps : List (Term f × Term f)) : 0 < (pairsBytes ps).length := by
  cases ps with
  | nil => exact Nat.one_pos
  | cons p ps =>
    have := p.1.length_bytes_pos
    rw [pairsBytes, List.length_append]
    omega

/-- A term does not begin with an end mark. -/
theorem tag_ne_tableEnd (t : Term f) : t.tag ≠ .tableEnd := by
  cases t <;> simp [tag]

/-- Tags have different bytes. -/
theorem toByte_inj {a b : Tag} (h : a.toByte = b.toByte) : a = b :=
  Option.some.inj (by rw [← Tag.ofByte?_toByte a, h, Tag.ofByte?_toByte])

/-- Terms at the beginning of one byte string have the same tag. -/
theorem tag_eq_of_append {t u : Term f} {r s : List UInt8} (h : t.bytes ++ r = u.bytes ++ s) :
    t.tag = u.tag := by
  obtain ⟨x, ht⟩ := t.bytes_eq_cons
  obtain ⟨y, hu⟩ := u.bytes_eq_cons
  rw [ht, hu, List.cons_append, List.cons_append, List.cons.injEq] at h
  exact toByte_inj h.1

/-- What stands before pairs is not an end mark. -/
theorem tableEnd_ne_bytes_append (t : Term f) (r s : List UInt8) :
    Tag.tableEnd.toByte :: s ≠ t.bytes ++ r := by
  obtain ⟨x, ht⟩ := t.bytes_eq_cons
  rw [ht, List.cons_append]
  intro h
  exact t.tag_ne_tableEnd (toByte_inj (List.cons.inj h).1).symm

mutual

/-- A term is recognised at the beginning of a byte string. -/
theorem bytes_append_inj (t u : Term f) {r s : List UInt8} (h : t.bytes ++ r = u.bytes ++ s) :
    t = u ∧ r = s := by
  have htag := tag_eq_of_append h
  cases t with
  | nil =>
    cases u with
    | nil => exact ⟨rfl, by simpa [bytes] using h⟩
    | _ => exact Tag.noConfusion htag
  | number bs hbs =>
    cases u with
    | number cs hcs =>
      simp only [bytes, List.cons_append, List.cons.injEq, true_and] at h
      obtain ⟨rfl, hrest⟩ := List.append_inj h (hbs.trans hcs.symm)
      exact ⟨rfl, hrest⟩
    | _ => exact Tag.noConfusion htag
  | boolean b =>
    cases u with
    | boolean c =>
      simp only [bytes, List.cons_append, List.nil_append, List.cons.injEq, true_and] at h
      exact ⟨by rw [h.1], h.2⟩
    | _ => exact Tag.noConfusion htag
  | string p =>
    cases u with
    | string q =>
      simp only [bytes, List.cons_append, List.cons.injEq, true_and] at h
      obtain ⟨rfl, hrest⟩ := Payload.wire_append_inj h
      exact ⟨rfl, hrest⟩
    | _ => exact Tag.noConfusion htag
  | table ps =>
    cases u with
    | table qs =>
      simp only [bytes, List.cons_append, List.cons.injEq, true_and] at h
      obtain ⟨rfl, hrest⟩ := pairsBytes_append_inj ps qs h
      exact ⟨rfl, hrest⟩
    | _ => exact Tag.noConfusion htag
  | blob p =>
    cases u with
    | blob q =>
      simp only [bytes, List.cons_append, List.cons.injEq, true_and, List.append_assoc] at h
      obtain ⟨rfl, hrest⟩ := Payload.wire_append_inj h
      exact ⟨rfl, (List.cons.inj hrest).2⟩
    | _ => exact Tag.noConfusion htag
  | remote p =>
    cases u with
    | remote q =>
      simp only [bytes, List.cons_append, List.cons.injEq, true_and] at h
      obtain ⟨rfl, hrest⟩ := Payload.wire_append_inj h
      exact ⟨rfl, hrest⟩
    | _ => exact Tag.noConfusion htag

/-- The pairs of a table are recognised up to their end mark. -/
theorem pairsBytes_append_inj (ps qs : List (Term f × Term f)) {r s : List UInt8}
    (h : pairsBytes ps ++ r = pairsBytes qs ++ s) : ps = qs ∧ r = s := by
  cases ps with
  | nil =>
    cases qs with
    | nil => exact ⟨rfl, by simpa [pairsBytes] using h⟩
    | cons q qs =>
      obtain ⟨k, v⟩ := q
      simp only [pairsBytes, List.append_assoc] at h
      exact absurd h (tableEnd_ne_bytes_append _ _ _)
  | cons p ps =>
    obtain ⟨k, v⟩ := p
    cases qs with
    | nil =>
      simp only [pairsBytes, List.append_assoc] at h
      exact absurd h.symm (tableEnd_ne_bytes_append _ _ _)
    | cons q qs =>
      obtain ⟨k', v'⟩ := q
      simp only [pairsBytes, List.append_assoc] at h
      obtain ⟨rfl, hk⟩ := bytes_append_inj k k' h
      obtain ⟨rfl, hv⟩ := bytes_append_inj v v' hk
      obtain ⟨rfl, hrest⟩ := pairsBytes_append_inj ps qs hv
      exact ⟨rfl, hrest⟩

end

/-- Terms one after another are recognised when their number is known. -/
theorem allBytes_append_inj {ts us : List (Term f)} {r s : List UInt8}
    (hlength : ts.length = us.length) (h : allBytes ts ++ r = allBytes us ++ s) :
    ts = us ∧ r = s := by
  induction ts generalizing us with
  | nil =>
    cases us with
    | nil => exact ⟨rfl, h⟩
    | cons u us => simp at hlength
  | cons t ts ih =>
    cases us with
    | nil => simp at hlength
    | cons u us =>
      simp only [allBytes_cons, List.append_assoc] at h
      obtain ⟨rfl, hrest⟩ := bytes_append_inj t u h
      obtain ⟨rfl, hend⟩ := ih (by simpa using hlength) hrest
      exact ⟨rfl, hend⟩

end Term

end RemoteCall
