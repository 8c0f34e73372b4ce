import RemoteCall.Number.Binary64

/-!
# The fewest digits that read back

Every real number between the midpoints to the two neighbouring patterns rounds to the same
pattern, the midpoints themselves exactly when the pattern is even. On each decimal grid the only
points worth trying are the two neighbours of the exact value, so the coarsest grid with a hit
gives the shortest digits, and the nearer of two hits is the answer. Distances are compared in
half units, as natural numbers.
-/

namespace RemoteCall.Shortest

/-- Which of two equally near grid points is taken. -/
inductive Tie where
  | away
  | even
  deriving DecidableEq, Repr

/-- A positive decimal number `digits * 10 ^ exponent`. -/
structure Decimal where
  digits : Nat
  exponent : Int
  deriving DecidableEq, Repr

/-- The interval of reals that round to one pattern, and the exact value, in half units. -/
structure Interval where
  low : Nat
  exact : Nat
  high : Nat
  closed : Bool

/-- The interval around a positive finite magnitude. -/
def Interval.ofMagnitude (magnitude : Nat) : Interval :=
  let units := FloatLayout.double.units
  { low := units magnitude + units (magnitude - 1)
    exact := 2 * units magnitude
    high := units magnitude + units (magnitude + 1)
    closed := magnitude % 2 = 0 }

/-- The point `point / scale` half units lies in the interval. -/
def Interval.holds (i : Interval) (point scale : Nat) : Bool :=
  if i.closed then i.low * scale ≤ point && point ≤ i.high * scale
  else i.low * scale < point && point < i.high * scale

/-- Half units in the number one. -/
def halfUnits : Nat := 2 * FloatLayout.double.one

/-- The point of the grid of step `10 ^ exponent` that stands for the interval, if one lies in it:
of the two neighbours of the exact value the nearer. -/
def onGrid (tie : Tie) (i : Interval) (exponent : Int) : Option Nat :=
  let step := halfUnits * Nat.pow 10 exponent.toNat
  let scale := Nat.pow 10 (-exponent).toNat
  let lower := i.exact * scale / step
  let rest := i.exact * scale % step
  let upper := lower + 1
  let upperWins := step < 2 * rest || (step = 2 * rest && (tie = .away || lower % 2 = 1))
  match i.holds (lower * step) scale, i.holds (upper * step) scale with
  | true, true => some (if upperWins then upper else lower)
  | true, false => some lower
  | false, true => some upper
  | false, false => none

/-- Tries ever finer grids. -/
def search (tie : Tie) (i : Interval) : Nat → Int → Decimal
  | 0, exponent => ⟨0, exponent⟩
  | fuel + 1, exponent =>
    match onGrid tie i exponent with
    | some digits => ⟨digits, exponent⟩
    | none => search tie i fuel (exponent - 1)

/-- The shortest decimal that rounds to a positive finite magnitude. The first grid is coarser than
the value itself, and at most twenty steps lead from there to one finer than the interval. -/
def decimal (tie : Tie) (magnitude : Nat) : Decimal :=
  let i := Interval.ofMagnitude magnitude
  let binary : Int := i.exact.log2 + 1 - (halfUnits.log2 : Int)
  search tie i 40 (binary * 30103 / 100000 + 2)

end RemoteCall.Shortest
