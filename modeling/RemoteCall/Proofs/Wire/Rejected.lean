import RemoteCall.Proofs.Wire.Accepted

/-!
# What readers reject

Bytes that are not followed by anything are rejected in three ways: they end too early, a byte that
is no tag stands where a tag is read, or they violate the protocol. The byte that is no tag is then
the last one read, and what stands behind it is left. Nothing else is ever said about them.
-/

namespace RemoteCall

/-- How bytes are rejected, and what is left on the line then. -/
inductive Rejection (bytes : List UInt8) : Error → Inbound → Prop where
  | eof (later : Inbound) : Rejection bytes .eof later
  | protocol (v : Violation) (later : Inbound) : Rejection bytes (.protocol v) later
  /-- The offending byte is above every tag. -/
  | unknownTag {front back : List UInt8} {b : UInt8} {later : Inbound}
    (hbytes : bytes = front ++ b :: back) (hb : 8 < b.toNat) (hlater : later.Brings back []) :
    Rejection bytes (.unknownTag b) later

/-- Rejected bytes are rejected also behind others. -/
theorem Rejection.behind {bytes : List UInt8} {e : Error} {later : Inbound}
    (h : Rejection bytes e later) (front : List UInt8) : Rejection (front ++ bytes) e later := by
  cases h with
  | eof => exact .eof later
  | protocol v => exact .protocol v later
  | unknownTag hbytes hb hlater =>
    rw [hbytes, ← List.append_assoc]
    exact .unknownTag rfl hb hlater

/-- Bytes that are no tag are above all tags. -/
theorem Tag.lt_of_ofByte?_eq_none {b : UInt8} (h : Tag.ofByte? b = none) : 8 < b.toNat := by
  refine Nat.lt_of_not_le fun hle => ?_
  have hfew : b = 0 ∨ b = 1 ∨ b = 2 ∨ b = 3 ∨ b = 4 ∨ b = 5 ∨ b = 6 ∨ b = 7 ∨ b = 8 := by
    simp only [← UInt8.toNat_inj, UInt8.reduceToNat]
    omega
  rcases hfew with rfl | rfl | rfl | rfl | rfl | rfl | rfl | rfl | rfl <;>
    exact Option.some_ne_none _ h

namespace Reader

variable {α β : Type} {x : Reader α} {k : α → Reader β}

/-- With nothing behind the bytes, the reader accepts a beginning of them or rejects them. -/
structure Judges (x : Reader α) : Prop where
  accepts : ∀ {bytes : List UInt8} {i j : Inbound} {a : α}, i.Brings bytes [] →
    x i = (.ok a, j) → ∃ front rest, bytes = front ++ rest ∧ j.Brings rest []
  rejects : ∀ {bytes : List UInt8} {i j : Inbound} {e : Error}, i.Brings bytes [] →
    x i = (.error e, j) → Rejection bytes e j

/-- Giving a value accepts the empty beginning. -/
theorem judges_pure (a : α) : Judges (pure a) where
  accepts := by
    intro bytes i j b hin h
    cases h
    exact ⟨[], bytes, rfl, hin⟩
  rejects := by
    intro bytes i j e hin h
    exact nomatch congrArg Prod.fst h

/-- Failing rejects all bytes, if it is a failure of the right kind. -/
theorem judges_throw {e : Error} (he : ∀ bytes later, Rejection bytes e later) :
    Judges (throw e : Reader α) where
  accepts := by
    intro bytes i j b hin h
    exact nomatch congrArg Prod.fst h
  rejects := by
    intro bytes i j e hin h
    cases h
    exact he bytes i

/-- Refusing rejects all bytes. -/
theorem judges_refuse (v : Violation) : Judges (refuse v : Reader α) :=
  judges_throw fun _ => .protocol v

/-- Readers in a row judge what is left one after another. -/
theorem Judges.bind (hx : Judges x) (hk : ∀ a, Judges (k a)) : Judges (x >>= k) where
  accepts := by
    intro bytes i j b hin h
    cases hi : x i with
    | mk result middle =>
      cases result with
      | error e =>
        rw [bind_of_error hi] at h
        exact nomatch congrArg Prod.fst h
      | ok a =>
        rw [bind_of_ok hi] at h
        obtain ⟨first, rest, rfl, hmiddle⟩ := hx.accepts hin hi
        obtain ⟨second, left, rfl, hj⟩ := (hk a).accepts hmiddle h
        exact ⟨first ++ second, left, (List.append_assoc ..).symm, hj⟩
  rejects := by
    intro bytes i j e hin h
    cases hi : x i with
    | mk result middle =>
      cases result with
      | error e' =>
        rw [bind_of_error hi] at h
        cases h
        exact hx.rejects hin hi
      | ok a =>
        rw [bind_of_ok hi] at h
        obtain ⟨first, rest, rfl, hmiddle⟩ := hx.accepts hin hi
        exact ((hk a).rejects hmiddle h).behind first

/-- Enough bytes are taken, and too few end too early. -/
theorem take_of_brings (n : Nat) {bytes : List UInt8} {i : Inbound} (hin : i.Brings bytes []) :
    (∃ later, take n i = (.ok (bytes.take n), later) ∧ later.Brings (bytes.drop n) []) ∨
      take n i = (.error .eof, ⟨[], []⟩) := by
  rcases Nat.lt_or_ge bytes.length n with hfew | hmany
  · exact .inr (Inbound.fill_of_meets hin hfew .ending)
  · rw [← List.take_append_drop n bytes] at hin
    obtain ⟨later, hrun, hlater⟩ := Inbound.fill_of_brings hin
    rw [List.length_take, Nat.min_eq_left hmany] at hrun
    exact .inl ⟨later, hrun, hlater⟩

/-- The first byte is read, if there is one. -/
theorem byte_of_brings {bytes : List UInt8} {i : Inbound} (hin : i.Brings bytes []) :
    (∃ b rest later, bytes = b :: rest ∧ byte i = (.ok b, later) ∧ later.Brings rest []) ∨
      byte i = (.error .eof, ⟨[], []⟩) := by
  cases bytes with
  | nil => exact .inr (breaks_byte i [] [] .eof hin .ending)
  | cons b rest =>
    obtain ⟨later, hrun, hlater⟩ := follows_byte b i rest [] hin
    exact .inl ⟨b, rest, later, rfl, hrun, hlater⟩

/-- A reader of so many bytes accepts them or finds too few. -/
theorem judges_take (n : Nat) : Judges (take n) where
  accepts := by
    intro bytes i j a hin h
    rcases take_of_brings n hin with ⟨later, hrun, hlater⟩ | hrun
    · cases hrun.symm.trans h
      exact ⟨bytes.take n, bytes.drop n, (List.take_append_drop n bytes).symm, hlater⟩
    · exact nomatch congrArg Prod.fst (hrun.symm.trans h)
  rejects := by
    intro bytes i j e hin h
    rcases take_of_brings n hin with ⟨later, hrun, -⟩ | hrun
    · exact nomatch congrArg Prod.fst (hrun.symm.trans h)
    · cases hrun.symm.trans h
      exact .eof _

/-- After a byte, the reader may also reject just that byte as no tag. -/
theorem judges_byte_bind {k : UInt8 → Reader β}
    (hk : ∀ b, Judges (k b) ∨ 8 < b.toNat ∧ k b = throw (.unknownTag b)) :
    Judges (byte >>= k) where
  accepts := by
    intro bytes i j a hin h
    rcases byte_of_brings hin with ⟨b, rest, later, rfl, hrun, hlater⟩ | hrun
    · rw [bind_of_ok hrun] at h
      rcases hk b with hb | ⟨-, hb⟩
      · obtain ⟨front, left, rfl, hj⟩ := hb.accepts hlater h
        exact ⟨b :: front, left, rfl, hj⟩
      · rw [hb] at h
        exact nomatch congrArg Prod.fst h
    · rw [bind_of_error hrun] at h
      exact nomatch congrArg Prod.fst h
  rejects := by
    intro bytes i j e hin h
    rcases byte_of_brings hin with ⟨b, rest, later, rfl, hrun, hlater⟩ | hrun
    · rw [bind_of_ok hrun] at h
      rcases hk b with hb | ⟨hhigh, hb⟩
      · exact (hb.rejects hlater h).behind [b]
      · rw [hb] at h
        cases h
        exact @Rejection.unknownTag _ [] rest b _ rfl hhigh hlater
    · rw [bind_of_error hrun] at h
      cases h
      exact .eof _

/-- The decoder judges whatever it is given. -/
theorem closed_judges : Closed Judges where
  result := judges_pure
  ending := judges_throw fun _ => .eof
  refusal := judges_refuse
  bytes := judges_take
  seq hx hk := hx.bind hk
  tagged hk := judges_byte_bind fun b =>
    (hk b).imp_right fun ⟨htag, hb⟩ => ⟨Tag.lt_of_ofByte?_eq_none htag, hb⟩

/-- Asking for a value alone accepts no more than the value. -/
theorem judges_alone (found : Item) : Judges (alone found) := by
  cases found with
  | value v => exact judges_pure v
  | mark tag => exact judges_refuse _

/-- A value is rejected in no other way. -/
theorem judges_value (f : Format) : Judges (value f) := by
  have hitem : ∀ budget, Judges (item f budget 0 >>= alone) := fun budget =>
    (closed_judges.item f budget 0).bind judges_alone
  constructor
  · intro bytes i j v hin h
    rw [value_eq f (Nat.le_refl (2 * i.flow.length + 1))] at h
    exact (hitem _).accepts hin h
  · intro bytes i j e hin h
    rw [value_eq f (Nat.le_refl (2 * i.flow.length + 1))] at h
    exact (hitem _).rejects hin h

end Reader

end RemoteCall
