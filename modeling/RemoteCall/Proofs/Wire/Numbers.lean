import RemoteCall.Proofs.Number.Binary64
import RemoteCall.Proofs.Wire.Bytes

/-!
# Numbers written back

A number that was read is written in the bytes that it was read from, with two exceptions. Four
bytes that are no number come back quiet, and an integer of eight bytes that no number holds comes
back as the one that was kept in its place. Reading the new bytes gives the same number in any case,
so nothing is lost on a second trip.
-/

namespace RemoteCall

open Binary64

/-! ### Two's complement -/

variable {bits n : Nat}

/-- The integers of a number of bits. -/
theorem ofTwosComplement_bounds (hbits : 0 < bits) (hn : n < Nat.pow 2 bits) :
    -(Nat.pow 2 (bits - 1) : Int) ≤ ofTwosComplement bits n ∧
      ofTwosComplement bits n ≤ Nat.pow 2 (bits - 1) - 1 := by
  have hdouble : Nat.pow 2 bits = Nat.pow 2 (bits - 1) * 2 := by
    rw [← FloatLayout.twoPow_succ, Nat.sub_add_cancel hbits]
  rw [hdouble] at hn
  rw [ofTwosComplement, hdouble]
  split <;> omega

/-- So many bits are read as an integer and written back. -/
theorem toTwosComplement_ofTwosComplement (hn : n < Nat.pow 2 bits) :
    toTwosComplement bits (ofTwosComplement bits n) = n := by
  have hsame : ofTwosComplement bits n % (Nat.pow 2 bits : Int) = n := by
    rw [ofTwosComplement]
    split
    · exact Int.emod_eq_of_lt (Int.natCast_nonneg n) (Int.ofNat_lt.mpr hn)
    · rw [Int.sub_emod_right]
      exact Int.emod_eq_of_lt (Int.natCast_nonneg n) (Int.ofNat_lt.mpr hn)
  rw [toTwosComplement, hsame, Int.toNat_natCast]

/-- Two's complement takes no more than its bits. -/
theorem toTwosComplement_lt (bits : Nat) (i : Int) : toTwosComplement bits i < Nat.pow 2 bits := by
  have hpos := FloatLayout.twoPow_pos bits
  have hless := Int.emod_lt_of_pos i (Int.ofNat_lt.mpr hpos)
  rw [toTwosComplement]
  omega

/-- An integer within the bounds is written and read back. -/
theorem ofTwosComplement_toTwosComplement {i : Int} (hbits : 0 < bits)
    (hlow : -(Nat.pow 2 (bits - 1) : Int) ≤ i) (hhigh : i ≤ Nat.pow 2 (bits - 1) - 1) :
    ofTwosComplement bits (toTwosComplement bits i) = i := by
  have hdouble : Nat.pow 2 bits = Nat.pow 2 (bits - 1) * 2 := by
    rw [← FloatLayout.twoPow_succ, Nat.sub_add_cancel hbits]
  rw [ofTwosComplement, toTwosComplement, hdouble]
  by_cases hi : 0 ≤ i
  · have hsame : i % ((Nat.pow 2 (bits - 1) * 2 : Nat) : Int) = i :=
      Int.emod_eq_of_lt hi (by omega)
    rw [hsame, if_pos (by omega)]
    omega
  · have hsame : i % ((Nat.pow 2 (bits - 1) * 2 : Nat) : Int) =
        i + (Nat.pow 2 (bits - 1) * 2 : Nat) := by
      rw [← Int.add_emod_right]
      exact Int.emod_eq_of_lt (by omega) (by omega)
    rw [hsame, if_neg (by omega)]
    omega

namespace Format

variable {f : Format} {bytes : List UInt8}

/-- The integer of all the bytes of a number. -/
def integerOf (f : Format) (bytes : List UInt8) : Int :=
  ofTwosComplement (8 * f.width.toNat) (ofLowBytes (f.ordered bytes))

/-- What can become of the bytes of a number when it is read and written back. -/
inductive Rewritten (f : Format) (bytes : List UInt8) : List UInt8 → Prop where
  | same : f.Rewritten bytes bytes
  /-- Four bytes that are no number are marked as quiet. -/
  | quiet {later : List UInt8} (hkind : f.kind = .float) (hwidth : f.width = 4)
    (hnan : (f.numberOf bytes).isNaN = true)
    (hlater : ofLowBytes (f.ordered later) = ofLowBytes (f.ordered bytes) ||| singleQuietBit) :
    f.Rewritten bytes later
  /-- An integer of eight bytes that no number holds is replaced. -/
  | wide {later : List UInt8} (hkind : f.kind = .integer) (hwidth : f.width = 8)
    (hlost : ∀ x : Binary64, ¬ x.Holds (f.integerOf bytes)) : f.Rewritten bytes later

/-! ### Widths -/

/-- An integer format is one, two, four or eight bytes wide. -/
theorem width_of_integer (hf : f.isSupported = true) (hkind : f.kind = .integer) :
    f.width = 1 ∨ f.width = 2 ∨ f.width = 4 ∨ f.width = 8 := by
  rw [isSupported, hkind] at hf
  simpa [supports, or_assoc] using hf

/-- A float format is four or eight bytes wide. -/
theorem width_of_float (hf : f.isSupported = true) (hkind : f.kind = .float) :
    f.width = 4 ∨ f.width = 8 := by
  rw [isSupported, hkind] at hf
  simpa [supports] using hf

/-- A supported format is one to four bytes wide, or eight. -/
theorem width_bounds (hf : f.isSupported = true) :
    0 < f.width.toNat ∧ f.width.toNat ≤ 8 ∧ (f.width ≠ 8 → f.width.toNat ≤ 4) := by
  cases hkind : f.kind with
  | integer => rcases width_of_integer hf hkind with h | h | h | h <;> rw [h] <;> decide
  | float => rcases width_of_float hf hkind with h | h <;> rw [h] <;> decide

/-- Bytes in the order of the format are as many as before. -/
theorem length_ordered_eq (hbytes : bytes.length = f.width.toNat) :
    (f.ordered bytes).length = f.width.toNat := by
  rw [length_ordered, hbytes]

/-- No byte of a number is left out. -/
theorem take_eight (hf : f.isSupported = true) (hbytes : bytes.length = f.width.toNat) :
    bytes.take 8 = bytes :=
  List.take_of_length_le (hbytes ▸ (width_bounds hf).2.1)

/-- Bytes in the order of the format are worth less than the power of their bits. -/
theorem ofLowBytes_ordered_lt (hbytes : bytes.length = f.width.toNat) :
    ofLowBytes (f.ordered bytes) < Nat.pow 2 (8 * f.width.toNat) := by
  have hpower : Nat.pow 2 (8 * f.width.toNat) = Nat.pow 256 f.width.toNat := Nat.pow_mul 2 8 _
  have hbound := ofLowBytes_lt (f.ordered bytes)
  rwa [length_ordered_eq hbytes, ← hpower] at hbound

/-- Bytes are what their worth is written as. -/
theorem ordered_lowBytes (hbytes : bytes.length = f.width.toNat) :
    f.ordered (lowBytes f.width.toNat (ofLowBytes (f.ordered bytes))) = bytes := by
  rw [← length_ordered_eq hbytes, lowBytes_ofLowBytes, ordered_ordered]

/-! ### Integers -/

/-- Integers are written by one rule for all widths. -/
theorem numberBytes_integer (hf : f.isSupported = true) (hkind : f.kind = .integer)
    (x : Binary64) : f.numberBytes x = f.ordered (integerBytes f.width.toNat x) := by
  rw [numberBytes, lowNumberBytes, hkind]
  rcases width_of_integer hf hkind with h | h | h | h <;> rw [h] <;> rfl

/-- And read by one rule. -/
theorem numberOf_integer (hf : f.isSupported = true) (hkind : f.kind = .integer)
    (hbytes : bytes.length = f.width.toNat) : f.numberOf bytes = ofInt (f.integerOf bytes) := by
  unfold numberOf
  dsimp only
  rw [take_eight hf hbytes, length_ordered_eq hbytes, hkind, integerOf]
  rcases width_of_integer hf hkind with h | h | h | h <;> rw [h] <;> rfl

/-- The integer of some bytes is within the bounds of the format. -/
theorem integerOf_bounds (hf : f.isSupported = true) (hbytes : bytes.length = f.width.toNat) :
    -(Nat.pow 2 (8 * f.width.toNat - 1) : Int) ≤ f.integerOf bytes ∧
      f.integerOf bytes ≤ Nat.pow 2 (8 * f.width.toNat - 1) - 1 := by
  have hpos := (width_bounds hf).1
  exact ofTwosComplement_bounds (by omega) (ofLowBytes_ordered_lt hbytes)

/-- An integer that a number holds is written back in its own bytes. -/
theorem numberBytes_of_holds (hf : f.isSupported = true) (hkind : f.kind = .integer)
    (hbytes : bytes.length = f.width.toNat) {x : Binary64} (hx : x.Holds (f.integerOf bytes)) :
    f.numberBytes (f.numberOf bytes) = bytes := by
  obtain ⟨hlow, hhigh⟩ := integerOf_bounds hf hbytes
  have hclamp : (ofInt (f.integerOf bytes)).clamp (8 * f.width.toNat) = f.integerOf bytes := by
    rw [hx.ofInt.clamp_eq]
    omega
  rw [numberOf_integer hf hkind hbytes, numberBytes_integer hf hkind, integerBytes, hclamp,
    integerOf, toTwosComplement_ofTwosComplement (ofLowBytes_ordered_lt hbytes),
    ordered_lowBytes hbytes]

/-- Integers of fewer than eight bytes are all held. -/
theorem holds_integerOf (hf : f.isSupported = true) (hwidth : f.width ≠ 8)
    (hbytes : bytes.length = f.width.toNat) :
    (ofInt (f.integerOf bytes)).Holds (f.integerOf bytes) := by
  have hfew := (width_bounds hf).2.2 hwidth
  have hpower : Nat.pow 2 (8 * f.width.toNat - 1) ≤ Nat.pow 2 31 :=
    FloatLayout.twoPow_le (by omega)
  have hmost : Nat.pow 2 31 = 2147483648 := rfl
  obtain ⟨hlow, hhigh⟩ := integerOf_bounds hf hbytes
  exact holds_ofInt_of_short (e := 0) (Nat.mul_one _).symm (by omega) (Nat.zero_le _)

/-- What is written for a number is read as the integer that it is clamped to. -/
theorem numberOf_numberBytes_integer (hf : f.isSupported = true) (hkind : f.kind = .integer)
    (x : Binary64) : f.numberOf (f.numberBytes x) = ofInt (x.clamp (8 * f.width.toNat)) := by
  have hlength := length_numberBytes hf x
  have hpos := (width_bounds hf).1
  obtain ⟨hlow, hhigh⟩ := x.clamp_bounds (8 * f.width.toNat)
  rw [numberOf_integer hf hkind hlength, integerOf, numberBytes_integer hf hkind, ordered_ordered,
    integerBytes, ofLowBytes_lowBytes]
  have hpower : Nat.pow 2 (8 * f.width.toNat) = Nat.pow 256 f.width.toNat := Nat.pow_mul 2 8 _
  have hlt := toTwosComplement_lt (8 * f.width.toNat) (x.clamp (8 * f.width.toNat))
  rw [← hpower, Nat.mod_eq_of_lt hlt, ofTwosComplement_toTwosComplement (by omega) hlow hhigh]

/-! ### Floats -/

/-- Four bytes are read as a short number. -/
theorem numberOf_single (hf : f.isSupported = true) (hkind : f.kind = .float)
    (hwidth : f.width = 4) (hbytes : bytes.length = f.width.toNat) :
    f.numberOf bytes = ofSingleBits (UInt32.ofNat (ofLowBytes (f.ordered bytes))) := by
  unfold numberOf
  dsimp only
  rw [take_eight hf hbytes, length_ordered_eq hbytes, hkind, hwidth]
  rfl

/-- In four bytes a number is written as its single pattern. -/
theorem numberBytes_single (hkind : f.kind = .float) (hwidth : f.width = 4) (x : Binary64) :
    f.numberBytes x = f.ordered (lowBytes f.width.toNat x.toSingleBits.toNat) := by
  rw [numberBytes, lowNumberBytes, hkind, hwidth]
  rfl

/-- The worth of the four bytes of a number is its single pattern. -/
theorem ofLowBytes_numberBytes_single (hkind : f.kind = .float) (hwidth : f.width = 4)
    (x : Binary64) : ofLowBytes (f.ordered (f.numberBytes x)) = x.toSingleBits.toNat := by
  rw [numberBytes_single hkind hwidth, ordered_ordered, ofLowBytes_lowBytes, hwidth]
  exact Nat.mod_eq_of_lt x.toSingleBits.toNat_lt

/-- The bits of four bytes. -/
theorem toNat_ofNat_single (hwidth : f.width = 4) (hbytes : bytes.length = f.width.toNat) :
    (UInt32.ofNat (ofLowBytes (f.ordered bytes))).toNat = ofLowBytes (f.ordered bytes) := by
  have hlt := ofLowBytes_ordered_lt hbytes
  rw [hwidth] at hlt
  rw [UInt32.toNat_ofNat']
  exact Nat.mod_eq_of_lt hlt

/-- Eight bytes of a float are its bits. -/
theorem numberOf_double (hf : f.isSupported = true) (hkind : f.kind = .float)
    (hwidth : f.width = 8) (hbytes : bytes.length = f.width.toNat) :
    f.numberOf bytes = ⟨UInt64.ofNat (ofLowBytes (f.ordered bytes))⟩ := by
  unfold numberOf
  dsimp only
  rw [take_eight hf hbytes, length_ordered_eq hbytes, hkind, hwidth]
  rfl

/-- In eight bytes a number is written as its own pattern. -/
theorem numberBytes_double (hkind : f.kind = .float) (hwidth : f.width = 8) (x : Binary64) :
    f.numberBytes x = f.ordered (lowBytes 8 x.bits.toNat) := by
  rw [numberBytes, lowNumberBytes, hkind, hwidth]
  rfl

/-- Eight bytes are a number that is written as these bytes. -/
theorem numberBytes_numberOf_double (hf : f.isSupported = true) (hkind : f.kind = .float)
    (hwidth : f.width = 8) (hbytes : bytes.length = f.width.toNat) :
    f.numberBytes (f.numberOf bytes) = bytes := by
  have hlt := ofLowBytes_ordered_lt hbytes
  have hall := ordered_lowBytes hbytes
  rw [hwidth] at hlt hall
  have hsame : (UInt64.ofNat (ofLowBytes (f.ordered bytes))).toNat =
      ofLowBytes (f.ordered bytes) := by
    rw [UInt64.toNat_ofNat']
    exact Nat.mod_eq_of_lt hlt
  rw [numberOf_double hf hkind hwidth hbytes, numberBytes_double hkind hwidth, hsame]
  exact hall

/-- The bits of a number are read from its eight bytes. -/
theorem numberOf_numberBytes_double (hf : f.isSupported = true) (hkind : f.kind = .float)
    (hwidth : f.width = 8) (x : Binary64) : f.numberOf (f.numberBytes x) = x := by
  have hbits : x.bits.toNat % Nat.pow 256 8 = x.bits.toNat := Nat.mod_eq_of_lt x.bits.toNat_lt
  rw [numberOf_double hf hkind hwidth (length_numberBytes hf x), numberBytes_double hkind hwidth,
    ordered_ordered, ofLowBytes_lowBytes, hbits, UInt64.ofNat_toNat]

/-! ### All numbers -/

/-- A number takes its own bytes again, or those that the exceptions allow. -/
theorem rewritten_numberBytes (hf : f.isSupported = true)
    (hbytes : bytes.length = f.width.toNat) :
    f.Rewritten bytes (f.numberBytes (f.numberOf bytes)) := by
  cases hkind : f.kind with
  | integer =>
    by_cases hheld : ∃ x : Binary64, x.Holds (f.integerOf bytes)
    · obtain ⟨x, hx⟩ := hheld
      rw [numberBytes_of_holds hf hkind hbytes hx]
      exact .same
    · by_cases hwidth : f.width = 8
      · exact .wide hkind hwidth fun x hx => hheld ⟨x, hx⟩
      · exact absurd ⟨_, holds_integerOf hf hwidth hbytes⟩ hheld
  | float =>
    rcases width_of_float hf hkind with hwidth | hwidth
    · have hnumber := numberOf_single hf hkind hwidth hbytes
      have hbits := toNat_ofNat_single hwidth hbytes
      rcases toSingleBits_ofSingleBits (UInt32.ofNat (ofLowBytes (f.ordered bytes))) with
        hsame | ⟨hnan, hquiet⟩
      · rw [hnumber, numberBytes_single hkind hwidth, hsame, hbits, ordered_lowBytes hbytes]
        exact .same
      · refine .quiet hkind hwidth (hnumber ▸ hnan) ?_
        rw [ofLowBytes_numberBytes_single hkind hwidth, hnumber, hquiet, hbits]
    · rw [numberBytes_numberOf_double hf hkind hwidth hbytes]
      exact .same

/-- The same number is read from the bytes that are written for it. -/
theorem numberOf_numberBytes_numberOf (hf : f.isSupported = true)
    (hbytes : bytes.length = f.width.toNat) :
    f.numberOf (f.numberBytes (f.numberOf bytes)) = f.numberOf bytes := by
  cases hkind : f.kind with
  | integer =>
    by_cases hwidth : f.width = 8
    · obtain ⟨hlow, hhigh⟩ := integerOf_bounds hf hbytes
      rw [numberOf_numberBytes_integer hf hkind, numberOf_integer hf hkind hbytes]
      rw [hwidth] at hlow hhigh ⊢
      exact ofInt_clamp hlow hhigh
    · rw [numberBytes_of_holds hf hkind hbytes (holds_integerOf hf hwidth hbytes)]
  | float =>
    rcases width_of_float hf hkind with hwidth | hwidth
    · have hnumber := numberOf_single hf hkind hwidth hbytes
      have hlength := length_numberBytes hf (f.numberOf bytes)
      rw [numberOf_single hf hkind hwidth hlength, ofLowBytes_numberBytes_single hkind hwidth,
        UInt32.ofNat_toNat, hnumber, ofSingleBits_toSingleBits_ofSingleBits]
    · rw [numberOf_numberBytes_double hf hkind hwidth]

end Format

end RemoteCall
