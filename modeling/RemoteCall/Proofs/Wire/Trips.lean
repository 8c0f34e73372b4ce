import RemoteCall.Proofs.Number.Rounding
import RemoteCall.Proofs.Wire.Numbers

/-!
# Trips of numbers over the wire

What becomes of a number that is written in a format and read back. Floats of eight bytes are not
changed. Of any other number an integer format sends the integer part within its bounds, and what
comes back is the number nearest to that; so larger numbers come back no smaller, and numbers that
are integers within the bounds come back as they were. Whatever the format, a second trip changes
nothing more.
-/

namespace RemoteCall

namespace Binary64

variable {x : Binary64} {i : Int}

/-- The integer is what is left of the number in two's complement of so many bits: nothing of what
is no number, the bound that an infinity is beyond, or the integer part toward zero within the
bounds. -/
structure Saturates (bits : Nat) (x : Binary64) (i : Int) : Prop where
  nan : x.isNaN = true → i = 0
  infinite : x.isInfinite = true →
    i = if x.negative then -(Nat.pow 2 (bits - 1) : Int) else Nat.pow 2 (bits - 1) - 1
  finite : x.isFinite = true → i = Max.max (-(Nat.pow 2 (bits - 1) : Int))
    (Min.min (Nat.pow 2 (bits - 1) - 1) (x.signedUnits.tdiv FloatLayout.double.one))

/-- What a number is moved to is what is left of it in two's complement. -/
theorem saturates_clamp (bits : Nat) (x : Binary64) : x.Saturates bits (x.clamp bits) := by
  constructor
  · intro hnan
    unfold clamp
    dsimp only
    rw [if_pos hnan]
  · intro hinfinite
    exact clamp_of_infinite hinfinite bits
  · intro hfinite
    rw [clamp_of_finite hfinite, truncate_eq_tdiv]

end Binary64

namespace Format

variable {f : Format} {x y : Binary64}

/-- What comes back of a number that is written in this format and read again. -/
def trip (f : Format) (x : Binary64) : Binary64 := f.numberOf (f.numberBytes x)

/-- What an integer format does to numbers. -/
structure IntegerTrips (f : Format) : Prop where
  /-- The bytes are those of the integer part within the bounds. -/
  bytes : ∀ x, f.numberBytes x = f.ordered (lowBytes f.width.toNat
    (toTwosComplement (8 * f.width.toNat) (x.clamp (8 * f.width.toNat))))
  part : ∀ x : Binary64, x.Saturates (8 * f.width.toNat) (x.clamp (8 * f.width.toNat))
  nearest : ∀ x : Binary64, (f.trip x).NearestTo (x.clamp (8 * f.width.toNat))
  exact : f.width.toNat ≤ 4 → ∀ x : Binary64, (f.trip x).Holds (x.clamp (8 * f.width.toNat))
  monotone : ∀ x y : Binary64, x.isNaN = false → y.isNaN = false → y.below x = false →
    (f.trip y).below (f.trip x) = false
  /-- Integers within the bounds come back, and only the sign of zero is lost. -/
  kept : ∀ (x : Binary64) (i : Int), x.Holds i →
    -(Nat.pow 2 (8 * f.width.toNat - 1) : Int) ≤ i → i ≤ Nat.pow 2 (8 * f.width.toNat - 1) - 1 →
    (f.trip x).same x = true ∧ (x ≠ .negativeZero → f.trip x = x)

/-- In an integer format a number comes back as the integer that it is moved to. -/
theorem trip_of_integer (hf : f.isSupported = true) (hkind : f.kind = .integer) (x : Binary64) :
    f.trip x = .ofInt (x.clamp (8 * f.width.toNat)) := numberOf_numberBytes_integer hf hkind x

/-- What is sent of a number is an integer of eight bytes at most. -/
theorem natAbs_clamp_le (hf : f.isSupported = true) (x : Binary64) :
    (x.clamp (8 * f.width.toNat)).natAbs ≤ 9223372036854775808 := by
  have hwidth := (width_bounds hf).2.1
  have hpower : Nat.pow 2 (8 * f.width.toNat - 1) ≤ Nat.pow 2 63 :=
    FloatLayout.twoPow_le (by omega)
  have hmost : Nat.pow 2 63 = 9223372036854775808 := rfl
  obtain ⟨hlow, hhigh⟩ := x.clamp_bounds (8 * f.width.toNat)
  omega

/-- Every integer format does this to numbers. -/
theorem integerTrips (hf : f.isSupported = true) (hkind : f.kind = .integer) :
    f.IntegerTrips := by
  have hnearest : ∀ x : Binary64, (f.trip x).NearestTo (x.clamp (8 * f.width.toNat)) := by
    intro x
    rw [trip_of_integer hf hkind]
    exact Binary64.nearestTo_ofInt_of_natAbs_le (natAbs_clamp_le hf x)
  refine ⟨numberBytes_integer hf hkind, fun x => x.saturates_clamp _, hnearest, ?_, ?_, ?_⟩
  · intro hwidth x
    have hpower : Nat.pow 2 (8 * f.width.toNat - 1) ≤ Nat.pow 2 31 :=
      FloatLayout.twoPow_le (by omega)
    have hmost : Nat.pow 2 31 = 2147483648 := rfl
    obtain ⟨hlow, hhigh⟩ := x.clamp_bounds (8 * f.width.toNat)
    rw [trip_of_integer hf hkind]
    exact Binary64.holds_ofInt_of_short (e := 0) (Nat.mul_one _).symm (by omega) (Nat.zero_le _)
  · intro x y hx hy h
    have hclamp := Binary64.clamp_le_clamp hx hy (Binary64.below_eq_false_iff.mp h)
      (8 * f.width.toNat)
    rw [Binary64.below_eq_false_iff_signedUnits]
    rcases Int.lt_or_eq_of_le hclamp with hless | hsame
    · exact (hnearest x).signedUnits_le (hnearest y) hless
    · refine Int.le_of_eq ?_
      rw [trip_of_integer hf hkind, trip_of_integer hf hkind, hsame]
  · intro x i hx hlow hhigh
    have hclamp : x.clamp (8 * f.width.toNat) = i := by
      rw [hx.clamp_eq]
      omega
    rw [trip_of_integer hf hkind, hclamp]
    exact ⟨hx.same_ofInt, hx.ofInt_eq_self⟩

/-- In every format a number takes the bytes of the width, in either order. An integer format keeps
the nearest number to the integer part within its bounds, floats of eight bytes are kept as they
are, and a second trip changes nothing in any format. -/
theorem trip_settles (hf : f.isSupported = true) :
    (∀ x, (f.numberBytes x).length = f.width.toNat ∧
      { f with littleEndian := false }.numberBytes x =
        ({ f with littleEndian := true }.numberBytes x).reverse) ∧
    (f.kind = .integer → f.IntegerTrips) ∧
    (f.kind = .float → f.width = 8 → ∀ x,
      f.numberBytes x = f.ordered (lowBytes 8 x.bits.toNat) ∧ f.trip x = x) ∧
    ∀ x, f.trip (f.trip x) = f.trip x := by
  refine ⟨fun x => ⟨length_numberBytes hf x, rfl⟩, integerTrips hf, fun hkind hwidth x =>
    ⟨numberBytes_double hkind hwidth x, numberOf_numberBytes_double hf hkind hwidth x⟩,
    fun x => numberOf_numberBytes_numberOf hf (length_numberBytes hf x)⟩

/-- In integers of eight bytes the upper infinity comes back as the number nearest to the largest of
them, and from then on as itself; in integers of two bytes it comes back as the largest. -/
theorem trip_settles_infinity :
    (⟨true, 8, .integer⟩ : Format).isSupported = true ∧
    (trip ⟨true, 8, .integer⟩ (.infinity false)).NearestTo 9223372036854775807 ∧
    trip ⟨true, 8, .integer⟩ (trip ⟨true, 8, .integer⟩ (.infinity false)) =
      trip ⟨true, 8, .integer⟩ (.infinity false) ∧
    (⟨false, 2, .integer⟩ : Format).isSupported = true ∧
    (trip ⟨false, 2, .integer⟩ (.infinity false)).Holds 32767 := by
  have hlong := trip_settles (f := ⟨true, 8, .integer⟩) rfl
  have hshort := trip_settles (f := ⟨false, 2, .integer⟩) rfl
  refine ⟨rfl, ?_, hlong.2.2.2 _, rfl, ?_⟩
  · have hclamp :
        (Binary64.infinity false).clamp (8 * (8 : UInt8).toNat) = 9223372036854775807 := by
      decide +kernel
    rw [← hclamp]
    exact (hlong.2.1 rfl).nearest _
  · have hclamp : (Binary64.infinity false).clamp (8 * (2 : UInt8).toNat) = 32767 := by
      decide +kernel
    rw [← hclamp]
    exact (hshort.2.1 rfl).exact (by decide) _

end Format

end RemoteCall
