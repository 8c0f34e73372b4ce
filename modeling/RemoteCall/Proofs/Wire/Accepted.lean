import RemoteCall.Proofs.Line.Flow
import RemoteCall.Proofs.Wire.Closed
import RemoteCall.Proofs.Wire.Reading

/-!
# What readers accept

A reader that comes to a value has taken a term off the line, and the value is what is read of that
term; so nothing but terms is accepted. A term takes at least one byte, so a reader that goes on
finds less on the line than before, and once its budget covers what is there, more of it makes no
difference. So reading a value, like reading bytes, is a matter of the flow alone.
-/

namespace RemoteCall

open Reader

variable {f : Format}

namespace Reader

/-- The decoder reads the flow alone. -/
theorem closed_respects : Closed Respects where
  result := respects_pure
  ending := respects_throw _
  refusal _ := respects_throw _
  bytes := respects_take
  seq hx hk := hx.bind hk
  tagged := by
    intro β k hk
    refine respects_byte.bind fun b => ?_
    rcases hk b with hb | ⟨-, hb⟩
    · exact hb
    · rw [hb]
      exact respects_throw _

/-- A length reads the flow alone. -/
theorem respects_word (f : Format) : Respects (word f) := closed_respects.word f

/-- A string reads the flow alone. -/
theorem respects_string (f : Format) : Respects (string f) := closed_respects.string f

/-- What is taken for a length, with what it says. -/
theorem yields_word (f : Format) : Yields (word f) fun bytes v => bytes = f.wordBytes v := by
  refine (yields_take 4).bind fun first taken ⟨hfirst, hlength⟩ => ?_
  refine (yields_pure _).imp fun bytes v ⟨hbytes, hv⟩ => ?_
  rw [hbytes, hv, hfirst, List.append_nil, f.wordBytes_wordOf hlength]

/-- A number is read of as many bytes as the format is wide. -/
theorem yields_number (f : Format) : Yields (number f) fun bytes n =>
    bytes.length = f.width.toNat ∧ n = ⟨f.numberOf bytes, f.kind⟩ := by
  refine (yields_take _).bind fun first taken ⟨hfirst, hlength⟩ => ?_
  refine (yields_pure _).imp fun bytes n ⟨hbytes, hn⟩ => ?_
  rw [hbytes, List.append_nil, hfirst]
  exact ⟨hlength, hn⟩

/-- Nothing is accepted where the reader refuses. -/
theorem yields_refuse {α : Type} (v : Violation) (P : List UInt8 → α → Prop) :
    Yields (refuse v) P := yields_throw _ P

/-- What is refused yields nothing. -/
theorem yields_refuse_bind {α β : Type} (v : Violation) (k : α → Reader β)
    (P : List UInt8 → β → Prop) : Yields (refuse v >>= k) P :=
  (yields_refuse v fun _ _ => False).bind fun _ _ h => h.elim

/-- A byte string is accepted as a payload within the limit. -/
theorem yields_string (f : Format) : Yields (string f) fun bytes s =>
    ∃ p : Payload, bytes = p.wire f ∧ p.reading = .done s := by
  refine (yields_word f).bind fun first v hfirst => ?_
  dsimp only
  split
  · exact yields_refuse_bind _ _ _
  · rename_i hsize
    refine (yields_take _).imp fun bytes s ⟨hbytes, hlength⟩ => ?_
    have hlt : s.length < UInt32.size := by
      rw [hlength]
      exact v.toNat_lt
    refine ⟨⟨s, hlt⟩, ?_, ?_⟩
    · simp only [Payload.wire, hfirst, hbytes, hlength, UInt32.ofNat_toNat]
    · simp only [Payload.reading, hlength, if_neg hsize]

/-- A reference that is read was sent as a payload that spells it. -/
theorem yields_reference (f : Format) : Yields (reference f) fun bytes path =>
    ∃ p : Payload, bytes = p.wire f ∧ p.referenceReading = .done path := by
  refine (yields_string f).bind fun first s ⟨p, hfirst, hread⟩ => ?_
  cases hpath : Text.decode? s with
  | none => exact yields_refuse _ _
  | some dotted =>
    refine (yields_pure _).imp fun bytes path ⟨hbytes, heq⟩ => ⟨p, ?_, ?_⟩
    · rw [hbytes, hfirst, List.append_nil]
    · simp only [Payload.referenceReading, hread, Reading.done_andThen, hpath, heq]

/-- A blob that is read was sent as a tagged payload with an end mark. -/
theorem yields_blob (f : Format) : Yields (blob f) fun bytes s =>
    ∃ p : Payload, bytes = Tag.string.toByte :: (p.wire f ++ [Tag.blobEnd.toByte]) ∧
      p.blobReading = .done s := by
  refine yields_byte.bind fun opening first hopening => ?_
  dsimp only
  split
  · exact yields_refuse_bind _ _ _
  · rename_i hfirst
    refine (yields_string f).bind fun middle s ⟨p, hmiddle, hread⟩ => ?_
    refine yields_byte.bind fun closing last hclosing => ?_
    split
    · exact yields_refuse_bind _ _ _
    · rename_i hlast
      refine (yields_pure _).imp fun bytes a ⟨hbytes, ha⟩ => ⟨p, ?_, ?_⟩
      · rw [hopening, hmiddle, hclosing, hbytes, Decidable.of_not_not hfirst,
          Decidable.of_not_not hlast,
          List.append_nil]
        rfl
      · rw [Payload.blobReading, hread, ha]
        rfl

end Reader

/-- The bytes are a term of which this is read inside `depth` tables, or they are that end mark. -/
def Item.StandsFor (f : Format) (depth : Nat) (bytes : List UInt8) : Item → Prop
  | .value v => ∃ t : Term f, bytes = t.bytes ∧ t.reading depth = .done v
  | .mark tag => bytes = [tag.toByte]

/-- Every item has at least one byte. -/
theorem Item.StandsFor.ne_nil {depth : Nat} {bytes : List UInt8} {i : Item}
    (h : i.StandsFor f depth bytes) : bytes ≠ [] := by
  cases i with
  | value v =>
    obtain ⟨t, rfl, -⟩ := h
    exact List.length_pos_iff.mp t.length_bytes_pos
  | mark tag =>
    rw [show bytes = [tag.toByte] from h]
    exact List.cons_ne_nil _ _

/-- The byte of a tag is the one that it is recognised by. -/
theorem Tag.toByte_of_ofByte? {b : UInt8} {tag : Tag} (h : Tag.ofByte? b = some tag) :
    tag.toByte = b := by
  unfold Tag.ofByte? at h
  repeat' split at h
  all_goals cases h
  all_goals exact Eq.symm ‹b = _›

namespace Reader

open Term

mutual

/-- An item is accepted only as a term or an end mark. -/
theorem yields_item (f : Format) (budget depth : Nat) :
    Yields (item f budget depth) fun bytes i => i.StandsFor f depth bytes := by
  cases budget with
  | zero => exact yields_throw _ _
  | succ budget =>
    rw [item]
    refine yields_byte.bind fun leading b hb => ?_
    cases htag : Tag.ofByte? b with
    | none => exact yields_throw _ _
    | some tag =>
      have hleading : leading = [tag.toByte] := by rw [hb, Tag.toByte_of_ofByte? htag]
      cases tag with
      | nil =>
        refine (yields_pure _).imp fun bytes i ⟨hbytes, hi⟩ => ?_
        rw [hi, hbytes, hleading]
        exact ⟨.nil, by rw [Term.bytes]; rfl, by rw [reading]⟩
      | number =>
        refine (yields_number f).bind fun body n ⟨hlength, hn⟩ => ?_
        refine (yields_pure _).imp fun bytes i ⟨hbytes, hi⟩ => ?_
        rw [hi, hbytes, hleading]
        exact ⟨.number body hlength, by rw [Term.bytes, List.append_nil]; rfl, by rw [reading, hn]⟩
      | boolean =>
        refine yields_byte.bind fun body byte hbyte => ?_
        refine (yields_pure _).imp fun bytes i ⟨hbytes, hi⟩ => ?_
        rw [hi, hbytes, hleading, hbyte]
        exact ⟨.boolean byte, by rw [Term.bytes]; rfl, by rw [reading]⟩
      | string =>
        refine (yields_string f).bind fun body s ⟨p, hbody, hread⟩ => ?_
        refine (yields_pure _).imp fun bytes i ⟨hbytes, hi⟩ => ?_
        rw [hi, hbytes, hleading, hbody]
        refine ⟨.string p, by rw [Term.bytes, List.append_nil]; rfl, ?_⟩
        rw [reading, hread, Reading.done_andThen]
      | table =>
        dsimp only
        split
        · exact yields_refuse_bind _ _ _
        · rename_i hdepth
          refine (yields_pairs f budget (depth + 1)).bind fun body qs ⟨ps, hbody, hread⟩ => ?_
          refine (yields_pure _).imp fun bytes i ⟨hbytes, hi⟩ => ?_
          rw [hi, hbytes, hleading, hbody]
          refine ⟨.table ps, by rw [Term.bytes, List.append_nil]; rfl, ?_⟩
          rw [reading, if_neg hdepth, hread, Reading.done_andThen]
      | tableEnd =>
        refine (yields_pure _).imp fun bytes i ⟨hbytes, hi⟩ => ?_
        rw [hi, hbytes, hleading]
        rfl
      | blob =>
        refine (yields_blob f).bind fun body s ⟨p, hbody, hread⟩ => ?_
        refine (yields_pure _).imp fun bytes i ⟨hbytes, hi⟩ => ?_
        rw [hi, hbytes, hleading, hbody]
        refine ⟨.blob p, by rw [Term.bytes, List.append_nil]; rfl, ?_⟩
        rw [reading, hread, Reading.done_andThen]
      | blobEnd =>
        refine (yields_pure _).imp fun bytes i ⟨hbytes, hi⟩ => ?_
        rw [hi, hbytes, hleading]
        rfl
      | remote =>
        refine (yields_reference f).bind fun body path ⟨p, hbody, hread⟩ => ?_
        refine (yields_pure _).imp fun bytes i ⟨hbytes, hi⟩ => ?_
        rw [hi, hbytes, hleading, hbody]
        refine ⟨.remote p, by rw [Term.bytes, List.append_nil]; rfl, ?_⟩
        rw [reading, hread, Reading.done_andThen]

/-- Pairs are accepted only as terms up to the end mark of the table. -/
theorem yields_pairs (f : Format) (budget depth : Nat) :
    Yields (pairs f budget depth) fun bytes qs =>
      ∃ ps : List (Term f × Term f), bytes = pairsBytes ps ∧ pairsReading depth ps = .done qs := by
  cases budget with
  | zero => exact yields_throw _ _
  | succ budget =>
    rw [pairs]
    refine (yields_item f budget depth).bind fun first key hkey => ?_
    split
    · refine (yields_pure _).imp fun bytes qs ⟨hbytes, hqs⟩ => ⟨[], ?_, ?_⟩
      · rw [hbytes, show first = [Tag.tableEnd.toByte] from hkey, pairsBytes, List.append_nil]
      · rw [pairsReading, hqs]
    · exact yields_refuse _ _
    · rename_i k
      obtain ⟨t, hfirst, ht⟩ := hkey
      refine (yields_item f budget depth).bind fun second value hvalue => ?_
      split
      · exact yields_refuse _ _
      · rename_i v
        obtain ⟨u, hsecond, hu⟩ := hvalue
        refine (yields_pairs f budget depth).bind fun others rest ⟨ps, hothers, hrest⟩ => ?_
        refine (yields_pure _).imp fun bytes qs ⟨hbytes, hqs⟩ => ⟨(t, u) :: ps, ?_, ?_⟩
        · rw [hbytes, hfirst, hsecond, hothers, pairsBytes, List.append_nil]
        · simp only [pairsReading, ht, hu, hrest, hqs, Reading.done_andThen]

end

/-- A reader that takes at least one byte makes the flow shorter. -/
theorem Yields.length_lt {α : Type} {x : Reader α} {P : List UInt8 → α → Prop} (hx : Yields x P)
    (hP : ∀ bytes a, P bytes a → bytes ≠ []) {i j : Inbound} {a : α} (h : x i = (.ok a, j)) :
    j.flow.length < i.flow.length := by
  obtain ⟨bytes, hflow, ha⟩ := hx i j a h
  have hpos := List.length_pos_iff.mpr (hP bytes a ha)
  rw [hflow, List.length_append, List.length_map]
  omega

/-- Reading a byte makes the flow shorter. -/
theorem length_lt_of_byte {i j : Inbound} {b : UInt8} (h : byte i = (.ok b, j)) :
    j.flow.length < i.flow.length :=
  yields_byte.length_lt (fun _ _ hb => hb ▸ List.cons_ne_nil _ _) h

/-- Reading an item makes the flow shorter. -/
theorem length_lt_of_item {budget depth : Nat} {i j : Inbound} {found : Item}
    (h : item f budget depth i = (.ok found, j)) : j.flow.length < i.flow.length :=
  (yields_item f budget depth).length_lt (fun _ _ hfound => hfound.ne_nil) h

mutual

/-- Any two budgets that cover what is on the line make the same of it. -/
theorem item_budget (f : Format) {budget other : Nat} (depth : Nat) {i : Inbound}
    (hbudget : 2 * i.flow.length + 1 ≤ budget) (hother : 2 * i.flow.length + 1 ≤ other) :
    item f budget depth i = item f other depth i := by
  obtain ⟨n, rfl⟩ : ∃ n, budget = n + 1 := ⟨budget - 1, by omega⟩
  obtain ⟨m, rfl⟩ : ∃ m, other = m + 1 := ⟨other - 1, by omega⟩
  rw [item, item]
  refine bind_congr_of_ok fun b j hbyte => ?_
  have hless := length_lt_of_byte hbyte
  cases Tag.ofByte? b with
  | none => rfl
  | some tag =>
    cases tag with
    | table =>
      dsimp only
      split
      · rfl
      · have hpairs : pairs f n (depth + 1) j = pairs f m (depth + 1) j :=
          pairs_budget f (depth + 1) (by omega) (by omega)
        exact bind_congr_of_run hpairs
    | _ => rfl

/-- A budget that is large enough for the flow is as good as any other such. -/
theorem pairs_budget (f : Format) {budget other : Nat} (depth : Nat) {i : Inbound}
    (hbudget : 2 * i.flow.length + 2 ≤ budget) (hother : 2 * i.flow.length + 2 ≤ other) :
    pairs f budget depth i = pairs f other depth i := by
  obtain ⟨n, rfl⟩ : ∃ n, budget = n + 1 := ⟨budget - 1, by omega⟩
  obtain ⟨m, rfl⟩ : ∃ m, other = m + 1 := ⟨other - 1, by omega⟩
  have hfirst : item f n depth i = item f m depth i := item_budget f depth (by omega) (by omega)
  rw [pairs, pairs, bind_congr_of_run hfirst]
  refine bind_congr_of_ok fun key j hkey => ?_
  have hless := length_lt_of_item hkey
  cases key with
  | mark tag => cases tag <;> rfl
  | value k =>
    have hsecond : item f n depth j = item f m depth j := item_budget f depth (by omega) (by omega)
    dsimp only
    rw [bind_congr_of_run hsecond]
    refine bind_congr_of_ok fun found rest hvalue => ?_
    have hfewer := length_lt_of_item hvalue
    cases found with
    | mark tag => rfl
    | value v => exact bind_congr_of_run (pairs_budget f depth (by omega) (by omega))

end

/-- Asking for a value alone reads the flow alone. -/
theorem respects_alone (found : Item) : Respects (alone found) := by
  cases found with
  | value v => exact respects_pure v
  | mark tag => exact respects_throw _

/-- A value is read with any budget that covers what is on the line. -/
theorem value_eq (f : Format) {i : Inbound} {budget : Nat}
    (hbudget : 2 * i.flow.length + 1 ≤ budget) :
    value f i = (item f budget 0 >>= alone) i := by
  have hsize := i.length_flow_le_size
  have hrun : value f i = (item f (2 * i.size + 1) 0 >>= alone) i := rfl
  rw [hrun]
  exact bind_congr_of_run (item_budget f 0 (by omega) hbudget)

/-- Reading a value is a matter of the flow alone. -/
theorem respects_value (f : Format) : Respects (value f) := by
  have hitem : ∀ budget, Respects (item f budget 0 >>= alone) := fun budget =>
    (closed_respects.item f budget 0).bind respects_alone
  constructor
  · intro i j hflow
    have hj : 2 * j.flow.length + 1 ≤ 2 * i.flow.length + 1 := Nat.le_of_eq (by rw [hflow])
    rw [value_eq f (Nat.le_refl (2 * i.flow.length + 1)), value_eq f hj]
    exact (hitem _).alike i j hflow
  · intro i
    rw [value_eq f (Nat.le_refl (2 * i.flow.length + 1))]
    exact (hitem _).shrinks i

/-- A value is accepted only as a term of which it is read. -/
theorem yields_value (f : Format) : Yields (value f) fun bytes v =>
    ∃ t : Term f, bytes = t.bytes ∧ t.reading 0 = .done v := by
  intro i j v h
  rw [value_eq f (Nat.le_refl (2 * i.flow.length + 1))] at h
  have hitem : Yields (item f (2 * i.flow.length + 1) 0 >>= alone) fun bytes v =>
      ∃ t : Term f, bytes = t.bytes ∧ t.reading 0 = .done v := by
    refine (yields_item f _ 0).bind fun first found hfound => ?_
    cases found with
    | mark tag => exact yields_refuse _ _
    | value u =>
      refine (yields_pure u).imp fun bytes v ⟨hbytes, hv⟩ => ?_
      rw [hbytes, hv, List.append_nil]
      exact hfound
  exact hitem i j v h

end Reader

end RemoteCall
