import RemoteCall.Proofs.Number.Binary64

/-!
# Rounding to the nearest number

A whole number of units is rounded to the pattern whose units are nearest to it, among all patterns
of the layout, and of two that are equally near to an even one: above its own power of two a layout
can hold only multiples of the step that rounding works with, and below it nothing is nearer than
the power itself. That alone makes rounding monotone, and so are patterns in their units and
truncation to an integer within bounds.
-/

namespace RemoteCall

/-- No value is nearer to `n` than that of `p`, and if another one is as near then `p` is even. -/
structure IsNearest (value : Nat → Nat) (n p : Nat) : Prop where
  least : ∀ q, ((value p : Int) - n).natAbs ≤ ((value q : Int) - n).natAbs
  even : ∀ q, ((value q : Int) - n).natAbs = ((value p : Int) - n).natAbs →
    value q = value p ∨ p % 2 = 0

section

variable {n d q r : Nat}

/-- A multiple lies at or below a given one, or a step above it. -/
theorem mul_cases (a q d : Nat) : a * d + d ≤ q * d ∨ a * d = q * d ∨ q * d + d ≤ a * d := by
  rcases Nat.lt_trichotomy a q with hless | rfl | hmore
  · have hstep := Nat.mul_le_mul_right d hless
    rw [Nat.succ_mul] at hstep
    exact .inl hstep
  · exact .inr (.inl rfl)
  · have hstep := Nat.mul_le_mul_right d hmore
    rw [Nat.succ_mul] at hstep
    exact .inr (.inr hstep)

/-- A multiple within half a step is nearest. -/
theorem isNearest_of_within (hn : q * d + r = n ∨ q * d = n + r) (hr : 2 * r ≤ d)
    (heven : 2 * r = d → q % 2 = 0) : IsNearest (· * d) n q := by
  constructor
  · intro a
    have := mul_cases a q d
    omega
  · intro a htie
    have := mul_cases a q d
    by_cases hhalf : 2 * r = d
    · exact .inr (heven hhalf)
    · omega

/-- A ratio is rounded to the nearest whole one. -/
theorem isNearest_roundHalfEven (hd : 0 < d) (n : Nat) :
    IsNearest (· * d) n (roundHalfEven n d) := by
  have hsplit := Nat.div_add_mod' n d
  have hrest := Nat.mod_lt n hd
  have hup : (n / d + 1) * d = n / d * d + d := Nat.succ_mul _ _
  have hnext : (n / d + 1) * d = n + (d - n % d) := by omega
  unfold roundHalfEven
  dsimp only
  split
  · exact isNearest_of_within (.inl hsplit) (by omega) (by omega)
  · split
    · exact isNearest_of_within (.inr hnext) (by omega) (by omega)
    · rcases Nat.mod_two_eq_zero_or_one (n / d) with heven | hodd
      · rw [heven]
        exact isNearest_of_within (.inl hsplit) (by omega) fun _ => heven
      · rw [hodd]
        exact isNearest_of_within (.inr hnext) (by omega) (by omega)

/-- What is nearest among all multiples of a step is nearest on a scale that holds only such
multiples from one of them on, if that one is not above. -/
theorem IsNearest.of_multiples {value : Nat → Nat} {b p : Nat} (hround : IsNearest (· * d) n q)
    (hvalue : value p = q * d) (hparity : p % 2 = q % 2) (hbelow : b * d ≤ n)
    (hscale : ∀ a, (∃ m, value a = m * d) ∨ value a < b * d) : IsNearest value n p := by
  have hfirst := hround.least b
  constructor
  · intro a
    rw [hvalue]
    rcases hscale a with ⟨m, hm⟩ | hless
    · rw [hm]
      exact hround.least m
    · omega
  · intro a htie
    rw [hvalue] at htie ⊢
    rw [hparity]
    rcases hscale a with ⟨m, hm⟩ | hless
    · rw [hm] at htie ⊢
      exact hround.even m htie
    · omega

end

namespace FloatLayout

variable {l : FloatLayout} {n p q : Nat}

/-- Above a power of two a layout holds only multiples of the step there. -/
theorem units_cases (l : FloatLayout) (s q : Nat) :
    (∃ a, l.units q = a * Nat.pow 2 s) ∨ l.units q < Nat.pow 2 l.fractionBits * Nat.pow 2 s := by
  rcases l.pattern_cases q with hsmall | ⟨t, m, rfl, hlow, hhigh⟩
  · right
    rw [units_of_lt hsmall]
    exact Nat.lt_of_lt_of_le hsmall (Nat.le_mul_of_pos_right _ (twoPow_pos s))
  · rw [units_add hlow (Nat.le_of_lt hhigh)]
    by_cases hstep : s ≤ t
    · left
      refine ⟨m * Nat.pow 2 (t - s), ?_⟩
      rw [Nat.mul_assoc, ← twoPow_add, Nat.sub_add_cancel hstep]
    · right
      calc m * Nat.pow 2 t < 2 * Nat.pow 2 l.fractionBits * Nat.pow 2 t :=
            Nat.mul_lt_mul_of_pos_right hhigh (twoPow_pos t)
        _ = Nat.pow 2 l.fractionBits * Nat.pow 2 (t + 1) := by
            rw [twoPow_succ, Nat.mul_comm 2, Nat.mul_assoc, Nat.mul_comm 2]
        _ ≤ Nat.pow 2 l.fractionBits * Nat.pow 2 s :=
            Nat.mul_le_mul_left _ (twoPow_le (Nat.lt_of_not_le hstep))

/-- The pattern that units are rounded to is even when the ratio is. -/
theorem nearest_mod_two (hbits : 0 < l.fractionBits) (h : l.nearest n 1 < l.infinity) :
    l.nearest n 1 % 2 = roundHalfEven n (Nat.pow 2 (n.log2 - l.fractionBits)) % 2 := by
  obtain ⟨b, hb⟩ : ∃ b, l.fractionBits = b + 1 := ⟨l.fractionBits - 1, by omega⟩
  rw [nearest_one] at h ⊢
  rw [Nat.min_eq_right (by omega), hb, twoPow_succ, ← Nat.mul_assoc, Nat.add_comm,
    Nat.add_mul_mod_self_right]

/-- Units are rounded to the nearest pattern, within the range. -/
theorem isNearest_nearest (hbits : 0 < l.fractionBits) (h : l.nearest n 1 < l.infinity) :
    IsNearest l.units n (l.nearest n 1) := by
  by_cases hsmall : n < Nat.pow 2 l.fractionBits
  · have hsame : l.nearest n 1 = n := by
      rw [nearest_of_lt hsmall] at h ⊢
      omega
    rw [hsame]
    have hexact := units_of_lt hsmall
    constructor
    · intro q
      omega
    · intro q htie
      omega
  · have hlarge := Nat.le_of_not_lt hsmall
    have hn : n ≠ 0 := Nat.ne_of_gt (Nat.lt_of_lt_of_le (twoPow_pos _) hlarge)
    have hlog : l.fractionBits ≤ n.log2 := le_log2_of_twoPow_le hn hlarge
    have hround := isNearest_roundHalfEven (twoPow_pos (n.log2 - l.fractionBits)) n
    refine hround.of_multiples (units_nearest h) (nearest_mod_two hbits h) ?_ (l.units_cases _)
    rw [← twoPow_add, Nat.add_sub_of_le hlog]
    exact Nat.log2_self_le hn

/-- A larger pattern counts more units. -/
theorem units_lt_units (h : p < q) : l.units p < l.units q := by
  rcases l.pattern_cases q with hq | ⟨t, m, rfl, hlow, hhigh⟩
  · rw [units_of_lt hq, units_of_lt (Nat.lt_trans h hq)]
    exact h
  rw [units_add hlow (Nat.le_of_lt hhigh)]
  rcases l.pattern_cases p with hp | ⟨s, a, rfl, hfirst, hlast⟩
  · rw [units_of_lt hp]
    exact Nat.lt_of_lt_of_le (Nat.lt_of_lt_of_le hp hlow) (Nat.le_mul_of_pos_right _ (twoPow_pos t))
  rw [units_add hfirst (Nat.le_of_lt hlast)]
  rcases Nat.lt_trichotomy s t with hless | rfl | hmore
  · calc a * Nat.pow 2 s < 2 * Nat.pow 2 l.fractionBits * Nat.pow 2 s :=
          Nat.mul_lt_mul_of_pos_right hlast (twoPow_pos s)
      _ = Nat.pow 2 l.fractionBits * Nat.pow 2 (s + 1) := by
          rw [twoPow_succ, Nat.mul_comm 2, Nat.mul_assoc, Nat.mul_comm 2]
      _ ≤ m * Nat.pow 2 t := Nat.mul_le_mul hlow (twoPow_le hless)
  · exact Nat.mul_lt_mul_of_pos_right (by omega) (twoPow_pos s)
  · -- A pattern with a larger exponent field is larger.
    have hstep := Nat.mul_le_mul_right (Nat.pow 2 l.fractionBits) hmore
    rw [Nat.succ_mul] at hstep
    omega

/-- Patterns are ordered as the magnitudes that they stand for. -/
theorem units_le_units_iff (l : FloatLayout) : l.units p ≤ l.units q ↔ p ≤ q := by
  constructor
  · intro h
    exact Nat.le_of_not_lt fun hless => absurd h (Nat.not_le_of_lt (units_lt_units hless))
  · intro h
    rcases Nat.lt_or_eq_of_le h with hless | rfl
    · exact Nat.le_of_lt (units_lt_units hless)
    · exact Nat.le_refl _

/-- Only the pattern zero stands for zero. -/
theorem units_eq_zero_iff (l : FloatLayout) : l.units p = 0 ↔ p = 0 := by
  have hzero : l.units 0 = 0 := units_of_lt (twoPow_pos _)
  have hleast := l.units_le_units_iff (p := p) (q := 0)
  omega

/-- The nearest pattern is at most that of infinity. -/
theorem nearest_le_infinity (l : FloatLayout) (n d : Nat) : l.nearest n d ≤ l.infinity :=
  Nat.min_le_left _ _

end FloatLayout

namespace Binary64

open FloatLayout

variable {x y : Binary64} {i j : Int}

/-! ### Order -/

/-- The place of a number in their order: its pattern with its sign. -/
def place (x : Binary64) : Int := if x.negative then -(x.magnitude : Int) else x.magnitude

/-- A number is below another exactly when its place is. -/
theorem below_eq_true_iff : x.below y = true ↔ x.place < y.place := decide_eq_true_iff

/-- A number is not below another exactly when the place of the other is not above its own. -/
theorem below_eq_false_iff : x.below y = false ↔ y.place ≤ x.place := by
  rw [← Bool.not_eq_true, below_eq_true_iff, Int.not_lt]

/-- Numbers are in the order of what they count. -/
theorem place_le_place_iff (x y : Binary64) :
    x.place ≤ y.place ↔ x.signedUnits ≤ y.signedUnits := by
  have hup := double.units_le_units_iff (p := x.magnitude) (q := y.magnitude)
  have hdown := double.units_le_units_iff (p := y.magnitude) (q := x.magnitude)
  have hx := double.units_eq_zero_iff (p := x.magnitude)
  have hy := double.units_eq_zero_iff (p := y.magnitude)
  unfold place signedUnits units
  cases x.negative <;> cases y.negative <;>
    simp only [Bool.false_eq_true, if_true, if_false] <;> omega

/-- The order of numbers is that of what they count. -/
theorem below_eq_false_iff_signedUnits : x.below y = false ↔ y.signedUnits ≤ x.signedUnits := by
  rw [below_eq_false_iff, place_le_place_iff]

/-! ### Truncation -/

/-- Truncation goes toward zero. -/
theorem truncate_eq_tdiv (x : Binary64) : x.truncate = x.signedUnits.tdiv double.one := by
  unfold truncate signedUnits
  dsimp only
  split
  · rw [Int.neg_tdiv, Int.ofNat_tdiv]
  · rw [Int.ofNat_tdiv]

/-- Cutting off the fraction respects the order. -/
theorem truncate_le_truncate (h : x.signedUnits ≤ y.signedUnits) : x.truncate ≤ y.truncate := by
  rw [truncate_eq_tdiv, truncate_eq_tdiv]
  exact Int.tdiv_le_tdiv (Int.ofNat_lt.mpr double.one_pos) h

/-- What is a number is finite or infinite. -/
theorem finite_or_infinite (hx : x.isNaN = false) :
    x.isFinite = true ∨ x.isInfinite = true := by
  have hle := of_decide_eq_false hx
  rcases Nat.lt_or_eq_of_le (Nat.le_of_not_lt hle) with hless | heq
  · exact .inl (decide_eq_true hless)
  · exact .inr (decide_eq_true heq)

/-- A finite number is cut to an integer and moved into the range. -/
theorem clamp_of_finite (hx : x.isFinite = true) (bits : Nat) :
    x.clamp bits = Max.max (-(Nat.pow 2 (bits - 1) : Int))
      (Min.min (Nat.pow 2 (bits - 1) - 1) x.truncate) := by
  unfold clamp
  dsimp only
  rw [not_isNaN_of_isFinite hx, not_isInfinite_of_isFinite hx]
  rfl

/-- An infinite number is moved to the end of the range on its side. -/
theorem clamp_of_infinite (hx : x.isInfinite = true) (bits : Nat) :
    x.clamp bits =
      if x.negative then -(Nat.pow 2 (bits - 1) : Int) else Nat.pow 2 (bits - 1) - 1 := by
  have hmagnitude : x.magnitude = double.infinity := of_decide_eq_true hx
  have hnan : x.isNaN = false := decide_eq_false (by omega)
  unfold clamp
  dsimp only
  rw [hnan, hx]
  rfl

/-- Infinity has the last place on its side. -/
theorem place_of_infinite (hx : x.isInfinite = true) :
    x.place = if x.negative then -(double.infinity : Int) else double.infinity := by
  rw [place, show x.magnitude = double.infinity from of_decide_eq_true hx]

/-- What is finite lies between the infinities. -/
theorem place_bounds_of_finite (hx : x.isFinite = true) :
    -(double.infinity : Int) < x.place ∧ x.place < double.infinity := by
  have hlt : x.magnitude < double.infinity := of_decide_eq_true hx
  unfold place
  split <;> omega

/-- Clamping keeps the order. -/
theorem clamp_le_clamp (hx : x.isNaN = false) (hy : y.isNaN = false) (h : x.place ≤ y.place)
    (bits : Nat) : x.clamp bits ≤ y.clamp bits := by
  obtain ⟨hlow, hhigh⟩ := clamp_bounds bits x
  obtain ⟨hlow', hhigh'⟩ := clamp_bounds bits y
  have hinfinity : 0 < double.infinity := by rw [infinity_double]; decide
  rcases finite_or_infinite hx with hxf | hxi
  · rcases finite_or_infinite hy with hyf | hyi
    · have := truncate_le_truncate ((place_le_place_iff x y).mp h)
      rw [clamp_of_finite hxf, clamp_of_finite hyf]
      omega
    · cases hsign : y.negative with
      | false =>
        rw [clamp_of_infinite hyi, hsign]
        exact hhigh
      | true =>
        -- Nothing finite is below the lower infinity.
        have habove := (place_bounds_of_finite hxf).1
        rw [place_of_infinite hyi, hsign, if_pos rfl] at h
        omega
  · cases hsign : x.negative with
    | true =>
      rw [clamp_of_infinite hxi, hsign]
      exact hlow'
    | false =>
      rw [place_of_infinite hxi, hsign, if_neg Bool.false_ne_true] at h
      rcases finite_or_infinite hy with hyf | hyi
      · have hbelow := (place_bounds_of_finite hyf).2
        omega
      · cases hsign' : y.negative with
        | false =>
          rw [clamp_of_infinite hyi, hsign']
          exact hhigh
        | true =>
          rw [place_of_infinite hyi, hsign', if_pos rfl] at h
          omega

/-! ### The number nearest to an integer -/

/-- How far a number is from an integer, in units. -/
def distance (x : Binary64) (i : Int) : Nat := (x.signedUnits - i * double.one).natAbs

/-- The number is finite and no finite number is nearer to the integer; if another one is as near,
then its pattern is even. -/
structure NearestTo (x : Binary64) (i : Int) : Prop where
  isFinite : x.isFinite = true
  least : ∀ y : Binary64, y.isFinite = true → x.distance i ≤ y.distance i
  even : ∀ y : Binary64, y.isFinite = true → y.distance i = x.distance i →
    y.signedUnits = x.signedUnits ∨ x.magnitude % 2 = 0

/-- Units with a sign, and what they stand for with the same sign, are as far apart as without. A
number of the other sign is no nearer than zero. -/
theorem nearestTo_of_isNearest {n : Nat}
    (hamount : i * double.one = if i < 0 then -(n : Int) else n)
    (hfinite : x.isFinite = true) (hsign : x.negative = decide (i < 0))
    (hnearest : IsNearest double.units n x.magnitude) : x.NearestTo i := by
  have hzero : double.units 0 = 0 := units_of_lt (twoPow_pos _)
  have hnothing := hnearest.least 0
  have hself : x.signedUnits =
      if i < 0 then -(double.units x.magnitude : Int) else double.units x.magnitude := by
    rw [signedUnits, hsign, units]
    by_cases hi : i < 0
    · rw [if_pos (decide_eq_true hi), if_pos hi]
    · rw [if_neg (by simpa using hi), if_neg hi]
  refine ⟨hfinite, fun y hy => ?_, fun y hy htie => ?_⟩
  · have hleast := hnearest.least y.magnitude
    unfold distance
    rw [hself, hamount, signedUnits, units]
    rw [hzero] at hnothing
    generalize double.units x.magnitude = u at hnothing hleast ⊢
    generalize double.units y.magnitude = v at hleast ⊢
    split <;> split <;> omega
  · have heven := hnearest.even y.magnitude
    have hnone := hnearest.even 0
    unfold distance at htie
    rw [hself, hamount, signedUnits, units] at htie
    rw [hself, signedUnits, units]
    rw [hzero] at hnothing hnone
    generalize double.units x.magnitude = u at hnothing heven hnone htie ⊢
    generalize double.units y.magnitude = v at heven htie ⊢
    generalize x.magnitude % 2 = parity at heven hnone ⊢
    cases hneg : y.negative <;> by_cases hi : i < 0 <;>
      simp only [hneg, hi, if_true, if_false, Bool.false_eq_true] at htie ⊢ <;> omega

/-- An integer within the range is converted to the number nearest to it. -/
theorem nearestTo_ofInt (h : double.nearest (i.natAbs * double.one) 1 < double.infinity) :
    (ofInt i).NearestTo i := by
  have hnearest := isNearest_nearest (l := double) (by decide) h
  obtain ⟨hfinite, hsign, -⟩ := nearest_finite (decide (i < 0)) h
  have hmagnitude : (ofInt i).magnitude = double.nearest (i.natAbs * double.one) 1 :=
    magnitude_ofMagnitude (Nat.lt_trans h infinity_lt_signWeight)
  rw [← hmagnitude] at hnearest
  refine nearestTo_of_isNearest ?_ hfinite hsign hnearest
  have hi : i = if i < 0 then -(i.natAbs : Int) else i.natAbs := by split <;> omega
  rw [Int.natCast_mul, ← Int.neg_mul]
  split at hi
  · rw [if_pos ‹_›, ← hi]
  · rw [if_neg ‹_›, ← hi]

/-- An integer of eight bytes is within the range. -/
theorem nearestTo_ofInt_of_natAbs_le (hi : i.natAbs ≤ 9223372036854775808) :
    (ofInt i).NearestTo i := by
  obtain ⟨j, hheld, -⟩ := exists_holds_ofInt hi
  have hle := double.nearest_le_infinity (i.natAbs * double.one) 1
  have hmagnitude : (ofInt i).magnitude = double.nearest (i.natAbs * double.one) 1 :=
    magnitude_ofMagnitude (Nat.lt_of_le_of_lt hle infinity_lt_signWeight)
  have hfinite : (ofInt i).magnitude < double.infinity := of_decide_eq_true hheld.isFinite
  exact nearestTo_ofInt (hmagnitude ▸ hfinite)

/-- Rounding to the nearest number keeps the order. -/
theorem NearestTo.signedUnits_le (hx : x.NearestTo i) (hy : y.NearestTo j) (h : i < j) :
    x.signedUnits ≤ y.signedUnits := by
  have hlow := hx.least y hy.isFinite
  have hhigh := hy.least x hx.isFinite
  have hone : (0 : Int) < double.one := Int.ofNat_lt.mpr double.one_pos
  have hstrict := Int.mul_lt_mul_of_pos_right h hone
  unfold distance at hlow hhigh
  -- Otherwise the lower integer is above the middle of the two numbers, and the higher one below.
  omega

/-! ### Integers -/

/-- A number that is an integer has its sign, unless it is the lower zero. -/
theorem Holds.negative_eq (h : x.Holds i) (hx : x ≠ negativeZero) :
    x.negative = decide (i < 0) := by
  have hsigned := h.signed
  have hone : (0 : Int) < double.one := Int.ofNat_lt.mpr double.one_pos
  unfold signedUnits at hsigned
  cases hneg : x.negative with
  | false =>
    rw [hneg, if_neg Bool.false_ne_true] at hsigned
    refine (decide_eq_false fun hi => ?_).symm
    have := Int.mul_neg_of_neg_of_pos hi hone
    omega
  | true =>
    rw [hneg, if_pos rfl] at hsigned
    refine (decide_eq_true (Int.not_le.mp fun hi => hx ?_)).symm
    have hpos := Int.mul_nonneg hi (Int.le_of_lt hone)
    have hzero : x.magnitude = 0 := double.units_eq_zero_iff.mp (show x.units = 0 by omega)
    rw [← ofMagnitude_eta x, hneg, hzero]
    rfl

/-- So it is the number nearest to its integer. -/
theorem Holds.ofInt_eq_self (h : x.Holds i) (hx : x ≠ negativeZero) : Binary64.ofInt i = x := by
  rw [h.ofInt_eq, ← h.negative_eq hx, ofMagnitude_eta]

/-- And up to the sign of zero always. -/
theorem Holds.same_ofInt (h : x.Holds i) : (Binary64.ofInt i).same x = true := by
  by_cases hx : x = negativeZero
  · subst hx
    have hzero : negativeZero.truncate = 0 := by decide +kernel
    obtain rfl : 0 = i := hzero.symm.trans h.truncate_eq
    decide +kernel
  · rw [h.ofInt_eq_self hx, same, not_isNaN_of_isFinite h.isFinite]
    simp

end Binary64

end RemoteCall
