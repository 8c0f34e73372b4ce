import RemoteCall.Number.Binary64
import RemoteCall.Proofs.Number.Magnitude

/-!
# What eight bytes hold

An integer is held if it is a number of its own, as every integer of at most fifty-three bits is.
The number nearest to any integer of eight bytes is an integer again, and going on from there loses
nothing more: the integer that it is clamped to has the same nearest number, even at the upper
bound, which is not held. Finite numbers of four bytes and infinities are all held, and come back as
the same four bytes. What is no number comes back quiet.
-/

namespace RemoteCall

namespace Binary64

open FloatLayout

variable {x : Binary64} {i : Int} {m n p : Nat} {sign : Bool}

/-- The sign bit of eight bytes. -/
theorem signWeight_double : double.signWeight = 9223372036854775808 := rfl

/-- The pattern of infinity in eight bytes. -/
theorem infinity_double : double.infinity = 9218868437227405312 := rfl

/-- The pattern of infinity leaves the sign bit free. -/
theorem infinity_lt_signWeight : double.infinity < double.signWeight := by
  rw [signWeight_double, infinity_double]
  decide

/-! ### Sign and magnitude -/

/-- A number is made of its sign bit and its magnitude. -/
theorem toNat_bits_ofMagnitude (sign : Bool) (h : m < double.signWeight) :
    (ofMagnitude sign m).bits.toNat = (if sign then double.signWeight else 0) + m := by
  rw [signWeight_double] at h ⊢
  rw [ofMagnitude, signWeight_double, UInt64.toNat_ofNat']
  cases sign <;> simp only [Bool.false_eq_true, if_true, if_false] <;> omega

/-- The sign is the one that a number was made with. -/
theorem negative_ofMagnitude (h : m < double.signWeight) :
    (ofMagnitude sign m).negative = sign := by
  rw [negative, toNat_bits_ofMagnitude sign h]
  rw [signWeight_double] at h ⊢
  cases sign with
  | false => simp [h]
  | true => simp

/-- The magnitude is the one that a number was made with. -/
theorem magnitude_ofMagnitude (h : m < double.signWeight) :
    (ofMagnitude sign m).magnitude = m := by
  rw [magnitude, toNat_bits_ofMagnitude sign h]
  rw [signWeight_double] at h ⊢
  cases sign <;> simp <;> omega

/-- A number is made of its sign and its magnitude. -/
theorem ofMagnitude_eta (x : Binary64) : ofMagnitude x.negative x.magnitude = x := by
  obtain ⟨bits⟩ := x
  have hlt : bits.toNat < 18446744073709551616 := bits.toNat_lt
  have hsum : (if negative ⟨bits⟩ then double.signWeight else 0) + magnitude ⟨bits⟩ =
      bits.toNat := by
    rw [negative, magnitude, signWeight_double]
    by_cases h : 9223372036854775808 ≤ bits.toNat
    · simp only [h, decide_true, if_true]
      omega
    · simp only [h, decide_false, Bool.false_eq_true, if_false]
      omega
  rw [ofMagnitude, hsum, UInt64.ofNat_toNat]

/-! ### Finite numbers -/

/-- What is rounded to a finite number has its sign and its units. -/
theorem nearest_finite (sign : Bool) (h : double.nearest n 1 < double.infinity) :
    (nearest sign n 1).isFinite = true ∧ (nearest sign n 1).negative = sign ∧
      (nearest sign n 1).units = double.units (double.nearest n 1) := by
  have hlt := Nat.lt_trans h infinity_lt_signWeight
  refine ⟨?_, negative_ofMagnitude hlt, ?_⟩
  · rw [isFinite, nearest, magnitude_ofMagnitude hlt]
    exact decide_eq_true h
  · rw [units, nearest, magnitude_ofMagnitude hlt]

/-- A finite number is a number. -/
theorem not_isNaN_of_isFinite (hx : x.isFinite = true) : x.isNaN = false := by
  have h := of_decide_eq_true hx
  exact decide_eq_false (Nat.not_lt_of_lt h)

/-- A finite number is not infinite. -/
theorem not_isInfinite_of_isFinite (hx : x.isFinite = true) : x.isInfinite = false :=
  decide_eq_false (Nat.ne_of_lt (of_decide_eq_true hx))

/-! ### Integers -/

/-- The number is this integer. -/
structure Holds (x : Binary64) (i : Int) : Prop where
  isFinite : x.isFinite = true
  signed : x.signedUnits = i * double.one

/-- The units of a number that is an integer. -/
theorem Holds.units_eq (h : x.Holds i) : x.units = i.natAbs * double.one := by
  have habs := congrArg Int.natAbs h.signed
  rw [Int.natAbs_mul, Int.natAbs_natCast, signedUnits] at habs
  rw [← habs]
  split
  · rw [Int.natAbs_neg, Int.natAbs_natCast]
  · rw [Int.natAbs_natCast]

/-- A number that is an integer is truncated to it. -/
theorem Holds.truncate_eq (h : x.Holds i) : x.truncate = i := by
  have hsigned := h.signed
  have hunits := h.units_eq
  have hone : (0 : Int) < double.one := Int.ofNat_lt.mpr double.one_pos
  rw [truncate, hunits, Nat.mul_div_cancel _ double.one_pos]
  rw [signedUnits, hunits, Int.natCast_mul] at hsigned
  split
  · rename_i hnegative
    rw [if_pos hnegative, ← Int.neg_mul] at hsigned
    exact Int.eq_of_mul_eq_mul_right (Int.ne_of_gt hone) hsigned
  · rename_i hnegative
    rw [if_neg hnegative] at hsigned
    exact Int.eq_of_mul_eq_mul_right (Int.ne_of_gt hone) hsigned

/-- The number nearest to an integer is an integer with its sign if its units are whole. -/
theorem holds_ofInt (hfinite : double.nearest (i.natAbs * double.one) 1 < double.infinity)
    (hunits : double.units (double.nearest (i.natAbs * double.one) 1) = m * double.one) :
    (ofInt i).Holds (if i < 0 then -(m : Int) else m) := by
  obtain ⟨hx, hsign, hsame⟩ := nearest_finite (i < 0) hfinite
  refine ⟨hx, ?_⟩
  have hneg : (ofInt i).negative = decide (i < 0) := hsign
  have hu : (ofInt i).units = m * double.one := hsame.trans hunits
  rw [signedUnits, hneg, hu, Int.natCast_mul]
  by_cases hi : i < 0
  · rw [if_pos (decide_eq_true hi), if_pos hi, Int.neg_mul]
  · rw [if_neg (by simpa using hi), if_neg hi]

/-- An integer is its magnitude with its sign. -/
theorem signed_natAbs (i : Int) : (if i < 0 then -(i.natAbs : Int) else i.natAbs) = i := by
  split <;> omega

/-- Fifty-three bits are held, and more if the last ones are zero. -/
theorem holds_ofInt_of_short {e : Nat} (hi : i.natAbs = m * Nat.pow 2 e)
    (hm : m < 9007199254740992) (he : e ≤ 64) : (ofInt i).Holds i := by
  have hpower : i.natAbs * double.one = m * Nat.pow 2 (e + double.oneBits) := by
    rw [hi, Nat.mul_assoc, one_eq, twoPow_add]
  have hbits : m < 2 * Nat.pow 2 double.fractionBits := hm
  have hrange : e + double.oneBits + 3 < Nat.pow 2 double.exponentBits := by
    have hone : double.oneBits = 1074 := rfl
    have hall : Nat.pow 2 double.exponentBits = 2048 := rfl
    omega
  obtain ⟨hfinite, hunits⟩ := units_nearest_of_short hbits hrange
  rw [← hpower] at hfinite hunits
  have h := holds_ofInt hfinite hunits
  rwa [signed_natAbs] at h

/-- A number that is an integer is what its units are rounded to. -/
theorem Holds.nearest_eq (h : x.Holds i) :
    double.nearest (i.natAbs * double.one) 1 = x.magnitude := by
  rw [← h.units_eq]
  exact FloatLayout.nearest_units (of_decide_eq_true h.isFinite)

/-- A number that is an integer is nearest to it, up to the sign of zero. -/
theorem Holds.ofInt_eq (h : x.Holds i) : Binary64.ofInt i = ofMagnitude (i < 0) x.magnitude := by
  rw [Binary64.ofInt, ofRatio, nearest, h.nearest_eq]

/-- If any number is an integer, the one nearest to it is. -/
theorem Holds.ofInt (h : x.Holds i) : (ofInt i).Holds i := by
  have hfinite : double.nearest (i.natAbs * double.one) 1 < double.infinity := by
    rw [h.nearest_eq]
    exact of_decide_eq_true h.isFinite
  have hunits : double.units (double.nearest (i.natAbs * double.one) 1) =
      i.natAbs * double.one := by
    rw [h.nearest_eq]
    exact h.units_eq
  have hheld := holds_ofInt hfinite hunits
  rwa [signed_natAbs] at hheld

/-- A whole number of fifty-four to sixty-three bits is rounded to a whole number. -/
theorem units_nearest_of_long (hlow : 9007199254740992 ≤ n) (hhigh : n < 9223372036854775808) :
    double.nearest (n * double.one) 1 < double.infinity ∧
      ∃ whole, double.units (double.nearest (n * double.one) 1) = whole * double.one ∧
        0 < whole ∧ whole ≤ 9223372036854775808 := by
  have hbits : double.fractionBits = 52 := rfl
  have hweight : Nat.pow 2 double.fractionBits = 4503599627370496 := rfl
  have hone : double.oneBits = 1074 := rfl
  have hbelow : Nat.pow 2 (53 + double.oneBits) ≤ n * double.one := by
    rw [twoPow_add 53 double.oneBits, ← one_eq]
    exact Nat.mul_le_mul_right _ hlow
  have habove : n * double.one < Nat.pow 2 (63 + double.oneBits) := by
    rw [twoPow_add 63 double.oneBits, ← one_eq]
    exact (Nat.mul_lt_mul_right double.one_pos).mpr hhigh
  have hn : n * double.one ≠ 0 :=
    Nat.ne_of_gt (Nat.lt_of_lt_of_le (twoPow_pos (53 + double.oneBits)) hbelow)
  have hlogLow := le_log2_of_twoPow_le hn hbelow
  have hlogHigh := log2_lt_of_lt_twoPow hn habove
  obtain ⟨hroundLow, hroundHigh⟩ :=
    @round_bounds double (n * double.one) (Nat.le_trans (twoPow_le (by omega)) hbelow)
  have hfinite : double.nearest (n * double.one) 1 < double.infinity := by
    refine nearest_lt_infinity ?_
    have hall : Nat.pow 2 double.exponentBits = 2048 := rfl
    omega
  have hunits := units_nearest hfinite
  -- The significand ends above the units of one, so that the rounded number is whole.
  obtain ⟨r, hshift, hr⟩ : ∃ r, (n * double.one).log2 - double.fractionBits =
      r + double.oneBits ∧ r ≤ 10 :=
    ⟨(n * double.one).log2 - double.fractionBits - double.oneBits, by omega, by omega⟩
  rw [hshift] at hroundLow hroundHigh hunits
  generalize roundHalfEven (n * double.one) (Nat.pow 2 (r + double.oneBits)) = m
    at hroundLow hroundHigh hunits
  rw [twoPow_add r double.oneBits, ← Nat.mul_assoc, ← one_eq] at hunits
  have hpower : Nat.pow 2 r ≤ Nat.pow 2 10 := twoPow_le hr
  refine ⟨hfinite, m * Nat.pow 2 r, hunits, Nat.mul_pos (by omega) (twoPow_pos r), ?_⟩
  calc m * Nat.pow 2 r ≤ 9007199254740992 * 1024 := Nat.mul_le_mul (by omega) hpower
    _ = 9223372036854775808 := rfl

/-- The number nearest to an integer of eight bytes is an integer, at most one above the largest of
eight bytes, and it is nearest to that integer too. -/
theorem exists_holds_ofInt (hi : i.natAbs ≤ 9223372036854775808) :
    ∃ j : Int, (ofInt i).Holds j ∧ j.natAbs ≤ 9223372036854775808 ∧ ofInt j = ofInt i := by
  by_cases hshort : i.natAbs < 9007199254740992
  · exact ⟨i, holds_ofInt_of_short (e := 0) (Nat.mul_one _).symm hshort (Nat.zero_le _), hi, rfl⟩
  by_cases hend : i.natAbs = 9223372036854775808
  · have hheld : (ofInt i).Holds i :=
      holds_ofInt_of_short (m := 4503599627370496) (e := 11) hend (by decide) (by decide)
    exact ⟨i, hheld, hi, rfl⟩
  obtain ⟨hfinite, whole, hunits, hpos, hsize⟩ :=
    units_nearest_of_long (Nat.le_of_not_lt hshort) (Nat.lt_of_le_of_ne hi hend)
  have hheld := holds_ofInt hfinite hunits
  have hsign : (ofInt i).negative = decide (i < 0) := (nearest_finite _ hfinite).2.1
  refine ⟨_, hheld, by split <;> omega, ?_⟩
  have hsame : decide ((if i < 0 then -(whole : Int) else whole) < 0) = (ofInt i).negative := by
    rw [hsign]
    exact decide_eq_decide.mpr (by split <;> omega)
  rw [hheld.ofInt_eq, hsame, ofMagnitude_eta]

/-- An integer within the bounds is clamped to itself. -/
theorem Holds.clamp_eq (h : x.Holds i) (bits : Nat) :
    x.clamp bits =
      Max.max (-(Nat.pow 2 (bits - 1) : Int)) (Min.min (Nat.pow 2 (bits - 1) - 1) i) := by
  have hnan := not_isNaN_of_isFinite h.isFinite
  have hinfinite := not_isInfinite_of_isFinite h.isFinite
  unfold clamp
  dsimp only
  rw [hnan, hinfinite, h.truncate_eq]
  rfl

/-- A number is clamped to the bounds. -/
theorem clamp_bounds (bits : Nat) (x : Binary64) :
    -(Nat.pow 2 (bits - 1) : Int) ≤ x.clamp bits ∧ x.clamp bits ≤ Nat.pow 2 (bits - 1) - 1 := by
  have hpos := twoPow_pos (bits - 1)
  unfold clamp
  dsimp only
  split
  · omega
  · split
    · split <;> omega
    · omega

/-- The bytes of an integer of eight bytes lose nothing that the number nearest to it has kept. -/
theorem ofInt_clamp (hlow : -9223372036854775808 ≤ i) (hhigh : i ≤ 9223372036854775807) :
    ofInt ((ofInt i).clamp 64) = ofInt i := by
  obtain ⟨j, hheld, hj, hsame⟩ := exists_holds_ofInt (i := i) (by omega)
  have hpower : Nat.pow 2 (64 - 1) = 9223372036854775808 := rfl
  rw [hheld.clamp_eq, hpower, ← hsame]
  by_cases hend : j = 9223372036854775808
  · -- One above the largest integer of eight bytes, which is rounded up to it again.
    rw [hend]
    decide +kernel
  · congr 1
    omega

/-! ### Four bytes -/

/-- The sign bit of four bytes. -/
theorem signWeight_single : single.signWeight = 2147483648 := rfl

/-- The pattern of infinity in four bytes. -/
theorem infinity_single : single.infinity = 2139095040 := rfl

/-- Four bytes are a sign and a magnitude. -/
theorem single_split (b : UInt32) :
    (if decide (single.signWeight ≤ b.toNat) = true then single.signWeight else 0) +
      b.toNat % single.signWeight = b.toNat := by
  have hlt : b.toNat < 4294967296 := b.toNat_lt
  rw [signWeight_single]
  by_cases h : 2147483648 ≤ b.toNat
  · simp only [h, decide_true, if_true]
    omega
  · simp only [h, decide_false, Bool.false_eq_true, if_false]
    omega

/-- A finite number of four bytes is a short number times a power of two. -/
theorem units_single (h : m < single.infinity) :
    ∃ a e, single.units m = a * Nat.pow 2 e ∧ a < 16777216 ∧ e ≤ 253 := by
  have hweight : Nat.pow 2 single.fractionBits = 8388608 := rfl
  rw [infinity_single] at h
  rcases single.pattern_cases m with hsmall | ⟨s, a, rfl, hlow, hhigh⟩
  · rw [units_of_lt hsmall]
    exact ⟨m, 0, (Nat.mul_one m).symm, by omega, Nat.zero_le _⟩
  · rw [units_add hlow (Nat.le_of_lt hhigh)]
    rw [hweight] at h hlow hhigh
    exact ⟨a, s, rfl, hhigh, by omega⟩

/-- A unit of four bytes is this power of two of units of eight bytes. -/
theorem unitRatio_eq : unitRatio = Nat.pow 2 (double.oneBits - single.oneBits) := by
  rw [unitRatio, @one_div_one double single (by decide)]

/-- A unit of four bytes is at least one of eight bytes. -/
theorem unitRatio_pos : 0 < unitRatio := by
  rw [unitRatio_eq]
  exact twoPow_pos (double.oneBits - single.oneBits)

/-- A finite number of four bytes is held as it is. -/
theorem ofSingleBits_finite {b : UInt32} (h : b.toNat % single.signWeight < single.infinity) :
    (ofSingleBits b).isFinite = true ∧
      (ofSingleBits b).negative = decide (single.signWeight ≤ b.toNat) ∧
      (ofSingleBits b).units = single.units (b.toNat % single.signWeight) * unitRatio := by
  obtain ⟨a, e, hunits, ha, he⟩ := units_single h
  have hpower : single.units (b.toNat % single.signWeight) * unitRatio =
      a * Nat.pow 2 (e + (double.oneBits - single.oneBits)) := by
    rw [hunits, unitRatio_eq, Nat.mul_assoc, ← twoPow_add e (double.oneBits - single.oneBits)]
  have hbits : a < 2 * Nat.pow 2 double.fractionBits :=
    Nat.lt_trans ha (by decide)
  have hrange : e + (double.oneBits - single.oneBits) + 3 < Nat.pow 2 double.exponentBits := by
    have hdouble : double.oneBits = 1074 := rfl
    have hsingle : single.oneBits = 149 := rfl
    have hall : Nat.pow 2 double.exponentBits = 2048 := rfl
    omega
  obtain ⟨hfinite, hexact⟩ := units_nearest_of_short hbits hrange
  rw [← hpower] at hfinite hexact
  have hnumber : ofSingleBits b = nearest (single.signWeight ≤ b.toNat)
      (single.units (b.toNat % single.signWeight) * unitRatio) 1 := by
    unfold ofSingleBits
    dsimp only
    rw [if_neg (Nat.not_lt_of_lt h), if_neg (Nat.ne_of_lt h)]
  rw [hnumber]
  obtain ⟨hx, hsign, hsame⟩ := nearest_finite (single.signWeight ≤ b.toNat) hfinite
  exact ⟨hx, hsign, hsame.trans hexact⟩

/-- Finite numbers of four bytes come back as the same bytes. -/
theorem toSingleBits_ofSingleBits_finite {b : UInt32}
    (h : b.toNat % single.signWeight < single.infinity) : (ofSingleBits b).toSingleBits = b := by
  obtain ⟨hx, hsign, hunits⟩ := ofSingleBits_finite h
  unfold toSingleBits
  dsimp only
  rw [not_isNaN_of_isFinite hx, not_isInfinite_of_isFinite hx, hsign, hunits,
    nearest_mul unitRatio_pos, FloatLayout.nearest_units h, if_neg Bool.false_ne_true,
    if_neg Bool.false_ne_true, single_split, UInt32.ofNat_toNat]

/-- So do infinities. -/
theorem toSingleBits_ofSingleBits_infinity {b : UInt32}
    (h : b.toNat % single.signWeight = single.infinity) : (ofSingleBits b).toSingleBits = b := by
  have hnumber : ofSingleBits b = ofMagnitude (single.signWeight ≤ b.toNat) double.infinity := by
    unfold ofSingleBits
    dsimp only
    rw [h, if_neg (Nat.lt_irrefl _), if_pos rfl, infinity]
  have hmagnitude : (ofSingleBits b).magnitude = double.infinity := by
    rw [hnumber, magnitude_ofMagnitude infinity_lt_signWeight]
  have hsign : (ofSingleBits b).negative = decide (single.signWeight ≤ b.toNat) := by
    rw [hnumber, negative_ofMagnitude infinity_lt_signWeight]
  unfold toSingleBits
  dsimp only
  rw [isNaN, isInfinite, hmagnitude, hsign, decide_eq_false (Nat.lt_irrefl _), decide_eq_true rfl,
    if_neg Bool.false_ne_true, if_pos rfl, ← h, single_split, UInt32.ofNat_toNat]

/-! ### Four bytes that are no number -/

/-- The bit that marks four bytes as quiet. -/
def singleQuietBit : Nat := Nat.pow 2 (single.fractionBits - 1)

/-- The payload made quiet. -/
def quietPayload (p : Nat) : Nat := p ||| singleQuietBit

/-- A quiet payload has the quiet bit, and no more bits than a payload has. -/
theorem quietPayload_bounds (hp : p < 8388608) :
    4194304 ≤ quietPayload p ∧ quietPayload p < 8388608 :=
  ⟨Nat.right_le_or, Nat.or_lt_two_pow (n := 23) hp (by decide)⟩

/-- A payload is made quiet at once. -/
theorem quietPayload_quietPayload (p : Nat) : quietPayload (quietPayload p) = quietPayload p := by
  rw [quietPayload, quietPayload, Nat.or_assoc, Nat.or_self]

/-- The bit is part of the payload, whatever stands above it. -/
theorem add_quietPayload (high : Nat) (hp : p < 8388608) :
    high * 8388608 + quietPayload p = (high * 8388608 + p) ||| singleQuietBit := by
  have hpower : high * 8388608 = high <<< 23 := (Nat.shiftLeft_eq high 23).symm
  have hquiet : quietPayload p < 8388608 := (quietPayload_bounds hp).2
  rw [hpower, Nat.shiftLeft_add_eq_or_of_lt hquiet, Nat.shiftLeft_add_eq_or_of_lt hp,
    quietPayload, Nat.or_assoc]

/-- Eight bytes are made quiet by the same bit as four. -/
theorem shift_or_quietBit (p : Nat) :
    p * Nat.pow 2 fractionShift ||| quietBit = quietPayload p * Nat.pow 2 fractionShift := by
  have hshift : fractionShift = 29 := rfl
  have hquiet : quietBit = singleQuietBit <<< 29 := rfl
  have hpower (n : Nat) : n * Nat.pow 2 29 = n <<< 29 := (Nat.shiftLeft_eq n 29).symm
  rw [hshift, hquiet, hpower, hpower, quietPayload, Nat.shiftLeft_or_distrib]

/-- The eight bytes that stand for four bytes with this payload that are no number. -/
def ofPayload (sign : Bool) (p : Nat) : Binary64 :=
  ofMagnitude sign (double.infinity + quietPayload p * Nat.pow 2 fractionShift)

/-- Eight bytes that are no number are quiet whether or not the four bytes were. -/
theorem ofPayload_quietPayload (sign : Bool) (p : Nat) :
    ofPayload sign (quietPayload p) = ofPayload sign p := by
  rw [ofPayload, quietPayload_quietPayload, ofPayload]

/-- They keep the sign, are no number either, and have a quiet payload. -/
theorem ofPayload_fields (sign : Bool) (hp : p < 8388608) :
    (ofPayload sign p).negative = sign ∧ (ofPayload sign p).isNaN = true ∧
      (ofPayload sign p).magnitude % Nat.pow 2 double.fractionBits / Nat.pow 2 fractionShift =
        quietPayload p := by
  obtain ⟨hlow, hhigh⟩ := quietPayload_bounds hp
  have hpower : Nat.pow 2 fractionShift = 536870912 := rfl
  have hfraction : Nat.pow 2 double.fractionBits = 4503599627370496 := rfl
  have hlt : double.infinity + quietPayload p * Nat.pow 2 fractionShift < double.signWeight := by
    rw [hpower, infinity_double, signWeight_double]
    omega
  refine ⟨negative_ofMagnitude hlt, ?_, ?_⟩
  · rw [isNaN, ofPayload, magnitude_ofMagnitude hlt, hpower]
    exact decide_eq_true (by omega)
  · rw [ofPayload, magnitude_ofMagnitude hlt, hpower, hfraction, infinity_double]
    omega

/-- Behind the pattern of infinity stands a payload. -/
theorem ofSingleBits_eq_ofPayload {b : UInt32}
    (hb : b.toNat % single.signWeight = single.infinity + p) (hp : 0 < p) :
    ofSingleBits b = ofPayload (single.signWeight ≤ b.toNat) p := by
  unfold ofSingleBits
  dsimp only
  rw [hb, if_pos (Nat.lt_add_of_pos_right hp), Nat.add_sub_cancel_left, shift_or_quietBit]
  rfl

/-- What stands for four bytes that are no number gives the same four bytes back, made quiet. -/
theorem toSingleBits_ofPayload (sign : Bool) (hp : p < 8388608) :
    (ofPayload sign p).toSingleBits.toNat =
      (if sign then single.signWeight else 0) + (single.infinity + quietPayload p) := by
  obtain ⟨hlow, hhigh⟩ := quietPayload_bounds hp
  obtain ⟨hsign, hnan, hpayload⟩ := ofPayload_fields sign hp
  have hsame : quietPayload p ||| Nat.pow 2 (single.fractionBits - 1) = quietPayload p :=
    quietPayload_quietPayload p
  unfold toSingleBits
  dsimp only
  rw [hnan, if_pos rfl, hpayload, hsame, hsign, UInt32.toNat_ofNat', infinity_single,
    signWeight_single]
  cases sign <;> simp only [Bool.false_eq_true, if_true, if_false] <;> omega

/-- What is read from four bytes that are no number is read from its own four bytes again. -/
theorem ofSingleBits_toSingleBits_ofPayload (sign : Bool) (hp : p < 8388608) :
    ofSingleBits (ofPayload sign p).toSingleBits = ofPayload sign p := by
  obtain ⟨hlow, hhigh⟩ := quietPayload_bounds hp
  have hbits := toSingleBits_ofPayload sign hp
  generalize (ofPayload sign p).toSingleBits = b at hbits
  rw [signWeight_single, infinity_single] at hbits
  have hmagnitude : b.toNat % single.signWeight = single.infinity + quietPayload p := by
    rw [signWeight_single, infinity_single]
    cases sign <;> simp only [Bool.false_eq_true, if_true, if_false] at hbits <;> omega
  have hsign : decide (single.signWeight ≤ b.toNat) = sign := by
    rw [signWeight_single]
    cases sign <;> simp only [Bool.false_eq_true, if_true, if_false] at hbits <;> simp <;> omega
  rw [ofSingleBits_eq_ofPayload hmagnitude (by omega), hsign, ofPayload_quietPayload]

/-- Four bytes that are no number have a payload. -/
theorem exists_ofPayload {b : UInt32} (h : single.infinity < b.toNat % single.signWeight) :
    ∃ high p, b.toNat = high * 8388608 + p ∧ p < 8388608 ∧
      b.toNat % single.signWeight = single.infinity + p ∧
      ofSingleBits b = ofPayload (single.signWeight ≤ b.toNat) p := by
  have hlt : b.toNat % single.signWeight < single.signWeight :=
    Nat.mod_lt _ (Nat.lt_of_lt_of_eq (by decide) signWeight_single.symm)
  obtain ⟨p, hp⟩ := Nat.exists_eq_add_of_lt h
  rw [Nat.add_assoc] at hp
  refine ⟨b.toNat / 8388608, p + 1, ?_, ?_, hp, ofSingleBits_eq_ofPayload hp (Nat.succ_pos p)⟩
  · rw [signWeight_single, infinity_single] at hp
    omega
  · rw [hp, signWeight_single, infinity_single] at hlt
    omega

/-- Four bytes come back as the same four bytes, except that what is no number comes back quiet. -/
theorem toSingleBits_ofSingleBits (b : UInt32) :
    (ofSingleBits b).toSingleBits = b ∨ (ofSingleBits b).isNaN = true ∧
      (ofSingleBits b).toSingleBits.toNat = b.toNat ||| singleQuietBit := by
  rcases Nat.lt_trichotomy (b.toNat % single.signWeight) single.infinity with h | h | h
  · exact .inl (toSingleBits_ofSingleBits_finite h)
  · exact .inl (toSingleBits_ofSingleBits_infinity h)
  · obtain ⟨high, p, hb, hp, hmagnitude, hnumber⟩ := exists_ofPayload h
    have hbits := toSingleBits_ofPayload (single.signWeight ≤ b.toNat) hp
    have hsplit := single_split b
    rw [hmagnitude] at hsplit
    rw [hnumber]
    refine .inr ⟨(ofPayload_fields _ hp).2.1, ?_⟩
    rw [hb, ← add_quietPayload high hp, ← hb]
    omega

/-- And the same is read from them then. -/
theorem ofSingleBits_toSingleBits_ofSingleBits (b : UInt32) :
    ofSingleBits (ofSingleBits b).toSingleBits = ofSingleBits b := by
  rcases Nat.lt_trichotomy (b.toNat % single.signWeight) single.infinity with h | h | h
  · rw [toSingleBits_ofSingleBits_finite h]
  · rw [toSingleBits_ofSingleBits_infinity h]
  · obtain ⟨high, p, hb, hp, hmagnitude, hnumber⟩ := exists_ofPayload h
    rw [hnumber, ofSingleBits_toSingleBits_ofPayload _ hp]

end Binary64

end RemoteCall
