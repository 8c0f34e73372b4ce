import RemoteCall.Number.Magnitude

/-!
# Eight-byte numbers

The numbers of the value model are kept as their 64 bits, so that the sign of zero and the payload
of a not-a-number survive every copy. Rounding happens only where a number is made (from an
integer, a ratio, a sum) and always goes to the nearest pattern, ties to even.
-/

namespace RemoteCall

/-- A binary floating-point number of eight bytes. -/
structure Binary64 where
  /-- Sign, exponent field and fraction, the sign in the highest bit. -/
  bits : UInt64
  deriving DecidableEq, Repr

namespace Binary64

/-- The sign bit. -/
def negative (x : Binary64) : Bool := FloatLayout.double.signWeight ≤ x.bits.toNat

/-- Everything below the sign bit. -/
def magnitude (x : Binary64) : Nat := x.bits.toNat % FloatLayout.double.signWeight

/-- The number with this sign and this magnitude. -/
def ofMagnitude (negative : Bool) (magnitude : Nat) : Binary64 :=
  ⟨UInt64.ofNat ((if negative then FloatLayout.double.signWeight else 0) + magnitude)⟩

/-- Positive zero. -/
def zero : Binary64 := ofMagnitude false 0

/-- Negative zero, the neutral element of addition. -/
def negativeZero : Binary64 := ofMagnitude true 0

/-- The infinity of this sign. -/
def infinity (negative : Bool) : Binary64 := ofMagnitude negative FloatLayout.double.infinity

/-- The bit that marks a not-a-number as quiet. -/
def quietBit : Nat := Nat.pow 2 (FloatLayout.double.fractionBits - 1)

/-- The not-a-number that an invalid operation gives. -/
def invalid : Binary64 := ofMagnitude true (FloatLayout.double.infinity + quietBit)

def isNaN (x : Binary64) : Bool := FloatLayout.double.infinity < x.magnitude

def isInfinite (x : Binary64) : Bool := x.magnitude = FloatLayout.double.infinity

def isFinite (x : Binary64) : Bool := x.magnitude < FloatLayout.double.infinity

def isZero (x : Binary64) : Bool := x.magnitude = 0

/-- Numeric equality: a not-a-number differs from everything, and the two zeros are equal. -/
def same (x y : Binary64) : Bool :=
  !x.isNaN && !y.isNaN && (x.bits == y.bits || (x.isZero && y.isZero))

/-- The number of units of a finite magnitude. -/
def units (x : Binary64) : Nat := FloatLayout.double.units x.magnitude

/-- The units of a finite number with their sign. -/
def signedUnits (x : Binary64) : Int := if x.negative then -(x.units : Int) else x.units

/-- The number nearest to `n / d` units of this sign. -/
def nearest (negative : Bool) (n d : Nat) : Binary64 :=
  ofMagnitude negative (FloatLayout.double.nearest n d)

/-- The number nearest to the ratio `n / d`. -/
def ofRatio (negative : Bool) (n d : Nat) : Binary64 :=
  nearest negative (n * FloatLayout.double.one) d

/-- The number nearest to an integer. -/
def ofInt (i : Int) : Binary64 := ofRatio (i < 0) i.natAbs 1

/-- The integer part, toward zero, of a finite number. -/
def truncate (x : Binary64) : Int :=
  let whole := x.units / FloatLayout.double.one
  if x.negative then -(whole : Int) else whole

/-- A finite number without fraction. -/
def isIntegral (x : Binary64) : Bool := x.isFinite && x.units % FloatLayout.double.one = 0

/-- The integer part clamped to the two's complement range of `bits` bits; not-a-number gives
zero. -/
def clamp (bits : Nat) (x : Binary64) : Int :=
  let low : Int := -(Nat.pow 2 (bits - 1))
  let high : Int := Nat.pow 2 (bits - 1) - 1
  if x.isNaN then 0
  else if x.isInfinite then (if x.negative then low else high)
  else max low (min high x.truncate)

/-- A not-a-number made quiet; other numbers stay. -/
def quiet (x : Binary64) : Binary64 :=
  if x.isNaN then ofMagnitude x.negative (x.magnitude ||| quietBit) else x

/-- The number with its sign turned. -/
def neg (x : Binary64) : Binary64 := ofMagnitude (!x.negative) x.magnitude

/-! ## Four bytes -/

/-- The distance between the fraction fields of the two layouts. -/
def fractionShift : Nat := FloatLayout.double.fractionBits - FloatLayout.single.fractionBits

/-- How many units of eight-byte numbers make one unit of four-byte numbers. -/
def unitRatio : Nat := FloatLayout.double.one / FloatLayout.single.one

/-- The four-byte bits nearest to a number. A not-a-number keeps its sign and the upper part of its
payload and becomes quiet. -/
def toSingleBits (x : Binary64) : UInt32 :=
  let sign := if x.negative then FloatLayout.single.signWeight else 0
  let magnitude :=
    if x.isNaN then
      FloatLayout.single.infinity +
        ((x.magnitude % Nat.pow 2 FloatLayout.double.fractionBits) / Nat.pow 2 fractionShift |||
          Nat.pow 2 (FloatLayout.single.fractionBits - 1))
    else if x.isInfinite then FloatLayout.single.infinity
    else FloatLayout.single.nearest x.units unitRatio
  UInt32.ofNat (sign + magnitude)

/-- The number with these four-byte bits; every finite one is exact. A not-a-number keeps its sign
and payload and becomes quiet. -/
def ofSingleBits (b : UInt32) : Binary64 :=
  let sign : Bool := FloatLayout.single.signWeight ≤ b.toNat
  let magnitude := b.toNat % FloatLayout.single.signWeight
  if FloatLayout.single.infinity < magnitude then
    ofMagnitude sign (FloatLayout.double.infinity +
      ((magnitude - FloatLayout.single.infinity) * Nat.pow 2 fractionShift ||| quietBit))
  else if magnitude = FloatLayout.single.infinity then infinity sign
  else nearest sign (FloatLayout.single.units magnitude * unitRatio) 1

/-! ## Arithmetic -/

/-- The sum rounded to nearest. An exact zero is negative only when both operands are. -/
def add (x y : Binary64) : Binary64 :=
  if x.isNaN then x.quiet
  else if y.isNaN then y.quiet
  else if x.isInfinite then
    if y.isInfinite && x.negative != y.negative then invalid else x
  else if y.isInfinite then y
  else
    let sum := x.signedUnits + y.signedUnits
    if sum = 0 then ofMagnitude (x.negative && y.negative) 0
    else nearest (sum < 0) sum.natAbs 1

/-- The sum of a list, from the left and from a given start. -/
def sum (start : Binary64) (xs : List Binary64) : Binary64 := xs.foldl add start

/-- Numeric order of two numbers neither of which is a not-a-number. -/
def below (x y : Binary64) : Bool :=
  let key (z : Binary64) : Int := if z.negative then -(z.magnitude : Int) else z.magnitude
  key x < key y

/-- The larger of two numbers. A not-a-number loses against a number, and of two equal ones the
first is taken. -/
def max (x y : Binary64) : Binary64 :=
  if x.isNaN then y else if y.isNaN then x else if x.below y then y else x

/-- The smaller of two numbers, with the same rules as `max`. -/
def min (x y : Binary64) : Binary64 :=
  if x.isNaN then y else if y.isNaN then x else if y.below x then y else x

/-- The product of two finite numbers rounded to nearest. -/
def mulFinite (x y : Binary64) : Binary64 :=
  nearest (x.negative != y.negative) (x.units * y.units) FloatLayout.double.one

/-- The quotient of two finite numbers, the second not zero, rounded to nearest. -/
def divFinite (x y : Binary64) : Binary64 :=
  nearest (x.negative != y.negative) (x.units * FloatLayout.double.one) y.units

end Binary64

end RemoteCall
