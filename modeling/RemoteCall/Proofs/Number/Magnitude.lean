import RemoteCall.Number.Magnitude

/-!
# Rounding to a layout

A number of units is rounded to a significand, one bit longer than the fraction, and a power of two.
The pattern that stands for the rounded number has exactly these units, also where the significand
has grown by a bit, and a pattern is what its own units round to. So rounding changes nothing that a
layout can hold, which is every short number times a power of two within its range.
-/

namespace RemoteCall

/-- Rounding goes down or up. -/
theorem roundHalfEven_cases (n d : Nat) :
    roundHalfEven n d = n / d ∨ roundHalfEven n d = n / d + 1 := by
  unfold roundHalfEven
  dsimp only
  split
  · exact .inl rfl
  · split
    · exact .inr rfl
    · omega

/-- A whole ratio is its own rounding. -/
theorem roundHalfEven_mul {d : Nat} (hd : 0 < d) (a : Nat) : roundHalfEven (a * d) d = a := by
  unfold roundHalfEven
  dsimp only
  rw [Nat.mul_mod_left, if_pos (by omega), Nat.mul_div_cancel a hd]

/-- Rounding is a matter of the ratio alone. -/
theorem roundHalfEven_mul_mul {c : Nat} (hc : 0 < c) (n d : Nat) :
    roundHalfEven (n * c) (d * c) = roundHalfEven n d := by
  have hbelow (x y : Nat) : 2 * (x * c) < y * c ↔ 2 * x < y := by
    rw [← Nat.mul_assoc]
    exact Nat.mul_lt_mul_right hc
  have habove (x y : Nat) : y * c < 2 * (x * c) ↔ y < 2 * x := by
    rw [← Nat.mul_assoc]
    exact Nat.mul_lt_mul_right hc
  unfold roundHalfEven
  simp only [Nat.mul_div_mul_right _ _ hc, Nat.mul_mod_mul_right, hbelow, habove]

namespace FloatLayout

variable {l : FloatLayout} {n m s p : Nat}

/-- A power of two is positive. -/
theorem twoPow_pos (k : Nat) : 0 < Nat.pow 2 k := Nat.pow_pos (by decide)

/-- The power of a sum is the product of the powers. -/
theorem twoPow_add (j k : Nat) : Nat.pow 2 (j + k) = Nat.pow 2 j * Nat.pow 2 k := Nat.pow_add 2 j k

/-- The next power of two is twice this one. -/
theorem twoPow_succ (k : Nat) : Nat.pow 2 (k + 1) = Nat.pow 2 k * 2 := Nat.pow_succ 2 k

/-- Powers of two increase. -/
theorem twoPow_le {j k : Nat} (h : j ≤ k) : Nat.pow 2 j ≤ Nat.pow 2 k :=
  Nat.pow_le_pow_right (by decide) h

/-- The binary logarithm is at least the exponent of a power of two below. -/
theorem le_log2_of_twoPow_le {k : Nat} (hn : n ≠ 0) (h : Nat.pow 2 k ≤ n) : k ≤ n.log2 :=
  (Nat.le_log2 hn).mpr h

/-- The binary logarithm is below the exponent of a power of two above. -/
theorem log2_lt_of_lt_twoPow {k : Nat} (hn : n ≠ 0) (h : n < Nat.pow 2 k) : n.log2 < k :=
  (Nat.log2_lt hn).mpr h

/-- The power of two that the number one is, in units. -/
def oneBits (l : FloatLayout) : Nat := Nat.pow 2 (l.exponentBits - 1) - 2 + l.fractionBits

/-- The number one is a power of two in units. -/
theorem one_eq (l : FloatLayout) : l.one = Nat.pow 2 l.oneBits := rfl

/-- The number one is positive in units. -/
theorem one_pos (l : FloatLayout) : 0 < l.one := twoPow_pos _

/-- One unit of the shorter layout counts a power of two in units of the longer one. -/
theorem one_div_one {l' : FloatLayout} (h : l'.oneBits ≤ l.oneBits) :
    l.one / l'.one = Nat.pow 2 (l.oneBits - l'.oneBits) := by
  have hsplit := twoPow_add (l.oneBits - l'.oneBits) l'.oneBits
  rw [Nat.sub_add_cancel h] at hsplit
  rw [one_eq, one_eq, hsplit, Nat.mul_div_cancel _ (twoPow_pos _)]

/-- Patterns without an exponent count units. -/
theorem units_of_lt (h : m < Nat.pow 2 l.fractionBits) : l.units m = m := by
  unfold units
  dsimp only
  rw [Nat.div_eq_of_lt h, Nat.mod_eq_of_lt h, if_pos rfl]

/-- A significand behind an exponent counts that power of two, also if it is one bit too long. -/
theorem units_add (hlow : Nat.pow 2 l.fractionBits ≤ m) (hhigh : m ≤ 2 * Nat.pow 2 l.fractionBits) :
    l.units (s * Nat.pow 2 l.fractionBits + m) = m * Nat.pow 2 s := by
  have hpos : 0 < Nat.pow 2 l.fractionBits := twoPow_pos _
  unfold units
  dsimp only
  generalize Nat.pow 2 l.fractionBits = weight at hlow hhigh hpos ⊢
  rw [Nat.add_comm, Nat.add_mul_div_right _ _ hpos, Nat.add_mul_mod_self_right]
  rcases Nat.lt_or_eq_of_le hhigh with hlt | rfl
  · have hfield : m / weight = 1 := Nat.div_eq_of_lt_le (by omega) (by omega)
    have hfraction : m % weight = m - weight := by
      rw [Nat.mod_eq_sub_mod hlow, Nat.mod_eq_of_lt (by omega)]
    rw [hfield, hfraction, if_neg (by omega), Nat.add_sub_of_le hlow, Nat.add_sub_cancel_left]
  · have hpower : Nat.pow 2 (s + 1) = Nat.pow 2 s * 2 := Nat.pow_succ 2 s
    have hexponent : 2 + s - 1 = s + 1 := by omega
    rw [Nat.mul_div_cancel _ hpos, Nat.mul_mod_left, if_neg (by omega), hexponent, twoPow_succ,
      Nat.add_zero, Nat.mul_comm 2 weight, Nat.mul_assoc, Nat.mul_comm 2]

/-- What is rounded to a significand of a whole number of units. -/
theorem nearest_one (l : FloatLayout) (n : Nat) :
    l.nearest n 1 = min l.infinity ((n.log2 - l.fractionBits) * Nat.pow 2 l.fractionBits +
      roundHalfEven n (Nat.pow 2 (n.log2 - l.fractionBits))) := by
  unfold nearest
  dsimp only
  rw [Nat.div_one, Nat.one_mul]

/-- A ratio of whole numbers of units that comes out even is rounded like its quotient. -/
theorem nearest_mul {d : Nat} (hd : 0 < d) (a : Nat) : l.nearest (a * d) d = l.nearest a 1 := by
  rw [nearest_one]
  unfold nearest
  dsimp only
  rw [Nat.mul_div_cancel a hd, Nat.mul_comm d, roundHalfEven_mul_mul hd]

/-- A number of units with more bits than a fraction has is cut to a significand with just one
more. -/
theorem significand_bounds (h : l.fractionBits ≤ n.log2) (hn : n ≠ 0) :
    Nat.pow 2 l.fractionBits ≤ n / Nat.pow 2 (n.log2 - l.fractionBits) ∧
      n / Nat.pow 2 (n.log2 - l.fractionBits) < 2 * Nat.pow 2 l.fractionBits := by
  have hsplit : n.log2 - l.fractionBits + l.fractionBits = n.log2 := Nat.sub_add_cancel h
  have hpos : 0 < Nat.pow 2 (n.log2 - l.fractionBits) := twoPow_pos _
  have hlow : Nat.pow 2 n.log2 ≤ n := Nat.log2_self_le hn
  have hhigh : n < Nat.pow 2 (n.log2 + 1) := Nat.lt_log2_self
  have hpower : Nat.pow 2 n.log2 =
      Nat.pow 2 (n.log2 - l.fractionBits) * Nat.pow 2 l.fractionBits := by
    rw [← twoPow_add, hsplit]
  constructor
  · rw [Nat.le_div_iff_mul_le hpos, Nat.mul_comm, ← hpower]
    exact hlow
  · rw [Nat.div_lt_iff_lt_mul hpos]
    rw [twoPow_succ, hpower] at hhigh
    rw [Nat.mul_assoc, Nat.mul_comm 2, Nat.mul_comm (Nat.pow 2 l.fractionBits)]
    exact hhigh

/-- A magnitude below the least normal one is not shifted. -/
theorem shift_of_lt (h : n < Nat.pow 2 l.fractionBits) : n.log2 - l.fractionBits = 0 := by
  by_cases hn : n = 0
  · rw [hn, Nat.log2_zero, Nat.zero_sub]
  · exact Nat.sub_eq_zero_of_le (Nat.le_of_lt (log2_lt_of_lt_twoPow hn h))

/-- Few units are kept. -/
theorem nearest_of_lt (h : n < Nat.pow 2 l.fractionBits) : l.nearest n 1 = min l.infinity n := by
  have hround := roundHalfEven_mul Nat.one_pos n
  rw [Nat.mul_one] at hround
  rw [nearest_one, shift_of_lt h, Nat.zero_mul, Nat.zero_add]
  exact congrArg _ hround

/-- More units are rounded to a significand, or to the next power of two. -/
theorem round_bounds (h : Nat.pow 2 l.fractionBits ≤ n) :
    Nat.pow 2 l.fractionBits ≤ roundHalfEven n (Nat.pow 2 (n.log2 - l.fractionBits)) ∧
      roundHalfEven n (Nat.pow 2 (n.log2 - l.fractionBits)) ≤ 2 * Nat.pow 2 l.fractionBits := by
  have hn : n ≠ 0 := Nat.ne_of_gt (Nat.lt_of_lt_of_le (twoPow_pos _) h)
  have hlog : l.fractionBits ≤ n.log2 := le_log2_of_twoPow_le hn h
  obtain ⟨hlow, hhigh⟩ := significand_bounds hlog hn
  rcases roundHalfEven_cases n (Nat.pow 2 (n.log2 - l.fractionBits)) with hround | hround <;>
    rw [hround] <;> constructor <;> omega

/-- The pattern that a number of units is rounded to has the units of the rounded significand. -/
theorem units_nearest (h : l.nearest n 1 < l.infinity) :
    l.units (l.nearest n 1) = roundHalfEven n (Nat.pow 2 (n.log2 - l.fractionBits)) *
      Nat.pow 2 (n.log2 - l.fractionBits) := by
  by_cases hsmall : n < Nat.pow 2 l.fractionBits
  · have hround := roundHalfEven_mul Nat.one_pos n
    rw [Nat.mul_one] at hround
    rw [nearest_of_lt hsmall] at h ⊢
    rw [Nat.min_eq_right (by omega), units_of_lt hsmall, shift_of_lt hsmall]
    exact (hround.symm.trans (Nat.mul_one _).symm)
  · obtain ⟨hlow, hhigh⟩ := round_bounds (Nat.le_of_not_lt hsmall)
    rw [nearest_one] at h ⊢
    rw [Nat.min_eq_right (by omega)]
    exact units_add hlow hhigh

/-- What has few enough bits is not rounded to infinity. -/
theorem nearest_lt_infinity (h : n.log2 - l.fractionBits + 2 < Nat.pow 2 l.exponentBits - 1) :
    l.nearest n 1 < l.infinity := by
  have hpos : 0 < Nat.pow 2 l.fractionBits := twoPow_pos _
  have hbelow := (Nat.mul_lt_mul_right hpos).mpr h
  rw [Nat.add_mul] at hbelow
  by_cases hsmall : n < Nat.pow 2 l.fractionBits
  · rw [nearest_of_lt hsmall]
    refine Nat.lt_of_le_of_lt (Nat.min_le_right _ _) (Nat.lt_of_le_of_lt ?_ hbelow)
    omega
  · obtain ⟨-, hhigh⟩ := round_bounds (Nat.le_of_not_lt hsmall)
    rw [nearest_one]
    refine Nat.lt_of_le_of_lt (Nat.min_le_right _ _) (Nat.lt_of_le_of_lt ?_ hbelow)
    exact Nat.add_le_add_left hhigh _

/-- A pattern without an exponent is its own units, and any other is a significand behind an
exponent. -/
theorem pattern_cases (l : FloatLayout) (p : Nat) :
    p < Nat.pow 2 l.fractionBits ∨ ∃ s m, p = s * Nat.pow 2 l.fractionBits + m ∧
      Nat.pow 2 l.fractionBits ≤ m ∧ m < 2 * Nat.pow 2 l.fractionBits := by
  have hpos : 0 < Nat.pow 2 l.fractionBits := twoPow_pos _
  generalize Nat.pow 2 l.fractionBits = weight at hpos ⊢
  by_cases hp : p < weight
  · exact .inl hp
  · right
    have hsplit := Nat.div_add_mod (p - weight) weight
    have hfraction := Nat.mod_lt (p - weight) hpos
    refine ⟨(p - weight) / weight, weight + (p - weight) % weight, ?_, by omega, by omega⟩
    rw [Nat.mul_comm]
    omega

/-- A significand with a power of two is kept. -/
theorem nearest_significand (hlow : Nat.pow 2 l.fractionBits ≤ m)
    (hhigh : m < 2 * Nat.pow 2 l.fractionBits) :
    l.nearest (m * Nat.pow 2 s) 1 = min l.infinity (s * Nat.pow 2 l.fractionBits + m) := by
  have hpos : 0 < Nat.pow 2 s := twoPow_pos s
  have hm : 0 < m := Nat.lt_of_lt_of_le (twoPow_pos _) hlow
  have hlog : (m * Nat.pow 2 s).log2 = l.fractionBits + s := by
    have hpower := twoPow_add l.fractionBits s
    refine (Nat.log2_eq_iff (Nat.ne_of_gt (Nat.mul_pos hm hpos))).mpr ⟨?_, ?_⟩
    · exact Nat.le_trans (Nat.le_of_eq hpower) (Nat.mul_le_mul_right _ hlow)
    · have hbelow := (Nat.mul_lt_mul_right hpos).mpr hhigh
      rw [Nat.mul_assoc, ← hpower, Nat.mul_comm 2, ← twoPow_succ] at hbelow
      exact hbelow
  rw [nearest_one, hlog, Nat.add_sub_cancel_left, roundHalfEven_mul hpos]

/-- A finite pattern is what its units are rounded to. -/
theorem nearest_units (h : p < l.infinity) : l.nearest (l.units p) 1 = p := by
  rcases l.pattern_cases p with hsmall | ⟨s, m, rfl, hlow, hhigh⟩
  · rw [units_of_lt hsmall, nearest_of_lt hsmall]
    exact Nat.min_eq_right (Nat.le_of_lt h)
  · rw [units_add hlow (Nat.le_of_lt hhigh), nearest_significand hlow hhigh]
    exact Nat.min_eq_right (Nat.le_of_lt h)

/-- A short number times a power of two is not changed by rounding, within the range. -/
theorem units_nearest_of_short {e : Nat} (hm : m < 2 * Nat.pow 2 l.fractionBits)
    (hrange : e + 3 < Nat.pow 2 l.exponentBits) :
    l.nearest (m * Nat.pow 2 e) 1 < l.infinity ∧
      l.units (l.nearest (m * Nat.pow 2 e) 1) = m * Nat.pow 2 e := by
  have hshift : (m * Nat.pow 2 e).log2 - l.fractionBits ≤ e := by
    by_cases hn : m * Nat.pow 2 e = 0
    · rw [hn, Nat.log2_zero, Nat.zero_sub]
      exact Nat.zero_le e
    · have hpower : Nat.pow 2 (l.fractionBits + 1 + e) =
          2 * Nat.pow 2 l.fractionBits * Nat.pow 2 e := by
        rw [twoPow_add, twoPow_succ, Nat.mul_comm 2]
      have hbelow := (Nat.mul_lt_mul_right (twoPow_pos e)).mpr hm
      rw [← hpower] at hbelow
      have hlog := log2_lt_of_lt_twoPow hn hbelow
      omega
  have hfinite : l.nearest (m * Nat.pow 2 e) 1 < l.infinity := nearest_lt_infinity (by omega)
  refine ⟨hfinite, ?_⟩
  generalize hs : (m * Nat.pow 2 e).log2 - l.fractionBits = s at hshift
  have hsplit : Nat.pow 2 e = Nat.pow 2 (e - s) * Nat.pow 2 s := by
    rw [← twoPow_add, Nat.sub_add_cancel hshift]
  rw [units_nearest hfinite, hs, hsplit, ← Nat.mul_assoc, roundHalfEven_mul (twoPow_pos s)]

end FloatLayout

end RemoteCall
