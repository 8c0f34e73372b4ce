/-!
# Binary magnitudes

A finite binary floating-point magnitude is a whole number of *units*, one unit being the least
positive value of its layout. Bit patterns and units are both natural numbers, the map between
them is strictly increasing, and rounding is a single function from a ratio of units to the bit
pattern nearest to it, a tie going to the even pattern. Everything that follows (conversion
between widths, arithmetic, decimal text) is exact natural-number arithmetic around it.
-/

namespace RemoteCall

/-- The ratio `n / d` rounded to the nearest natural number, a tie going to the even one. -/
def roundHalfEven (n d : Nat) : Nat :=
  let q := n / d
  let r := n % d
  if 2 * r < d then q else if d < 2 * r then q + 1 else q + q % 2

/-- The shape of a binary floating-point format. -/
structure FloatLayout where
  /-- Stored bits of the significand. -/
  fractionBits : Nat
  /-- Bits of the exponent field. -/
  exponentBits : Nat
  deriving DecidableEq, Repr

namespace FloatLayout

/-- Four bytes: 23 fraction bits and 8 exponent bits. -/
def single : FloatLayout := ⟨23, 8⟩

/-- Eight bytes: 52 fraction bits and 11 exponent bits. -/
def double : FloatLayout := ⟨52, 11⟩

/-- The bit pattern of infinity; every larger magnitude is not a number. -/
def infinity (l : FloatLayout) : Nat := (Nat.pow 2 l.exponentBits - 1) * Nat.pow 2 l.fractionBits

/-- The bit below which the sign stands. -/
def signWeight (l : FloatLayout) : Nat := Nat.pow 2 (l.exponentBits + l.fractionBits)

/-- The number one, counted in units. -/
def one (l : FloatLayout) : Nat := Nat.pow 2 (Nat.pow 2 (l.exponentBits - 1) - 2 + l.fractionBits)

/-- The value of a bit pattern in units. Patterns with exponent field zero have no hidden bit. -/
def units (l : FloatLayout) (pattern : Nat) : Nat :=
  let field := pattern / Nat.pow 2 l.fractionBits
  let fraction := pattern % Nat.pow 2 l.fractionBits
  if field = 0 then fraction else (Nat.pow 2 l.fractionBits + fraction) * Nat.pow 2 (field - 1)

/-- The bit pattern nearest to `n / d` units, a tie going to the even pattern; what lies beyond the
largest finite value becomes infinity. A significand that rounds up to the next power of two
carries into the exponent field by itself, because patterns are consecutive. -/
def nearest (l : FloatLayout) (n d : Nat) : Nat :=
  let shift := (n / d).log2 - l.fractionBits
  min l.infinity (shift * Nat.pow 2 l.fractionBits + roundHalfEven n (d * Nat.pow 2 shift))

end FloatLayout

end RemoteCall
