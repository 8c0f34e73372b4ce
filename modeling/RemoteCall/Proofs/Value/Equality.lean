import RemoteCall.Value.Basic

/-!
# Equality of values

Equality looks at what numbers are worth: not at the representation they travel in and not at the
sign of a zero, at any depth of a table, in its keys as in its values. Two values are equal exactly
when they agree once these are set aside and no not-a-number stands in either of them. So equality
is symmetric and transitive, and a value equals itself unless it holds a not-a-number, in which case
it equals nothing.
-/

namespace RemoteCall

namespace Binary64

variable {x y : Binary64}

/-- The number, where both zeros are the positive one. -/
def unsignedZero (x : Binary64) : Binary64 := if x.isZero then zero else x

/-- Numbers are equal when they are worth the same. -/
theorem same_iff : x.same y = true ↔
    x.isNaN = false ∧ y.isNaN = false ∧ x.unsignedZero = y.unsignedZero := by
  have hbits : x.bits = y.bits ↔ x = y :=
    ⟨fun h => by cases x; cases y; exact congrArg Binary64.mk h, congrArg bits⟩
  have hzero : isZero zero = true := by decide
  simp only [same, Bool.and_eq_true, Bool.not_eq_true', Bool.or_eq_true, beq_iff_eq, hbits,
    and_assoc]
  refine and_congr_right fun _ => and_congr_right fun _ => ?_
  cases hx : x.isZero with
  | true =>
    cases hy : y.isZero with
    | true => simp [unsignedZero, hx, hy]
    | false =>
      have hne : zero ≠ y := fun h => by simp [← h, hzero] at hy
      have hne' : x ≠ y := fun h => by simp [← h, hx] at hy
      simp [unsignedZero, hx, hy, hne, hne']
  | false =>
    cases hy : y.isZero with
    | true =>
      have hne : x ≠ zero := fun h => by simp [h, hzero] at hx
      have hne' : x ≠ y := fun h => by simp [h, hy] at hx
      simp [unsignedZero, hx, hy, hne, hne']
    | false => simp [unsignedZero, hx, hy]

end Binary64

namespace Value

variable {a b c : Value}

mutual

/-- A not-a-number stands somewhere in the value. -/
def hasNaN : Value → Bool
  | .number n => n.value.isNaN
  | .table pairs => hasNaNPairs pairs
  | _ => false

/-- A not-a-number stands in one of the keys or values. -/
def hasNaNPairs : List (Value × Value) → Bool
  | [] => false
  | (k, v) :: rest => hasNaN k || hasNaN v || hasNaNPairs rest

end

mutual

/-- The value with all its numbers as floats and without negative zeros: what equality looks at. -/
def worth : Value → Value
  | .number n => float n.value.unsignedZero
  | .table pairs => .table (worthPairs pairs)
  | v => v

/-- The pairs with keys and values so. -/
def worthPairs : List (Value × Value) → List (Value × Value)
  | [] => []
  | (k, v) :: rest => (worth k, worth v) :: worthPairs rest

end

mutual

/-- Values are equal when they are worth the same and hold no not-a-number. -/
theorem same_iff : ∀ a b : Value,
    a.same b = true ↔ a.hasNaN = false ∧ b.hasNaN = false ∧ a.worth = b.worth
  | .number m, .number n => by
    rw [same, Binary64.same_iff, hasNaN, hasNaN, worth, worth, float, float]
    simp
  | .table ps, .table qs => by
    rw [same, samePairs_iff ps qs, hasNaN, hasNaN, worth, worth]
    simp
  | .nil, b | .boolean _, b | .string _, b | .blob _, b | .remote _, b => by
    cases b <;> simp [same, hasNaN, worth, float]
  | .number _, .nil | .number _, .boolean _ | .number _, .string _ | .number _, .table _
  | .number _, .blob _ | .number _, .remote _ => by simp [same, worth, float]
  | .table _, .nil | .table _, .boolean _ | .table _, .number _ | .table _, .string _
  | .table _, .blob _ | .table _, .remote _ => by simp [same, worth, float]

/-- Tables are equal pair by pair. -/
theorem samePairs_iff : ∀ ps qs : List (Value × Value), samePairs ps qs = true ↔
    hasNaNPairs ps = false ∧ hasNaNPairs qs = false ∧ worthPairs ps = worthPairs qs
  | [], [] => by simp [samePairs, hasNaNPairs]
  | [], (_, _) :: _ | (_, _) :: _, [] => by simp [samePairs, worthPairs]
  | (k, v) :: ps, (k', v') :: qs => by
    rw [samePairs, Bool.and_eq_true, Bool.and_eq_true, same_iff k k', same_iff v v',
      samePairs_iff ps qs, hasNaNPairs, hasNaNPairs, worthPairs, worthPairs]
    simp only [Bool.or_eq_false_iff, List.cons.injEq, Prod.mk.injEq]
    constructor
    · rintro ⟨⟨⟨hk, hk', hkeys⟩, hv, hv', hvalues⟩, hps, hqs, hrest⟩
      exact ⟨⟨⟨hk, hv⟩, hps⟩, ⟨⟨hk', hv'⟩, hqs⟩, ⟨hkeys, hvalues⟩, hrest⟩
    · rintro ⟨⟨⟨hk, hv⟩, hps⟩, ⟨⟨hk', hv'⟩, hqs⟩, ⟨hkeys, hvalues⟩, hrest⟩
      exact ⟨⟨⟨hk, hk', hkeys⟩, hv, hv', hvalues⟩, hps, hqs, hrest⟩

end

/-- A value equals itself unless it holds a not-a-number. -/
theorem same_self_iff : a.same a = true ↔ a.hasNaN = false := by
  rw [same_iff]
  exact ⟨fun h => h.1, fun h => ⟨h, h, rfl⟩⟩

/-- Equality goes both ways. -/
theorem same_comm (a b : Value) : a.same b = b.same a := by
  rw [Bool.eq_iff_iff, same_iff, same_iff, and_left_comm, eq_comm (a := a.worth)]

/-- Equality goes on through a value between. -/
theorem same_trans (hab : a.same b = true) (hbc : b.same c = true) : a.same c = true := by
  rw [same_iff] at *
  exact ⟨hab.1, hbc.2.1, hab.2.2.trans hbc.2.2⟩

/-- Equal values equal the same values. -/
theorem same_eq_of_same (h : a.same b = true) : a.same = b.same := by
  funext c
  rw [Bool.eq_iff_iff]
  exact ⟨same_trans (same_comm a b ▸ h), same_trans h⟩

/-- What holds a not-a-number equals nothing. -/
theorem same_of_hasNaN (h : a.hasNaN = true) (b : Value) : a.same b = false := by
  rw [Bool.eq_false_iff]
  intro hsame
  rw [(same_iff a b).mp hsame |>.1] at h
  exact Bool.false_ne_true h

end Value

end RemoteCall
