import RemoteCall.Number.Shortest
import RemoteCall.Text.Quoted

/-!
# Numbers as text

The shortest digits of a number are laid out by a style. The plain style is always positional; the
scientific style, used in JSON, keeps a point in every number and moves to an exponent outside
`10^-5 ≤ |x| < 10^16`.
-/

namespace RemoteCall

/-- How the digits of a number are laid out. -/
structure NumberStyle where
  /-- The choice between two equally near decimals. -/
  tie : Shortest.Tie
  /-- Whole numbers end in `.0`. -/
  wholePoint : Bool
  /-- The least and greatest power of ten of the leading digit that is written positionally; without
  bounds every number is. -/
  positional : Option (Int × Int)

namespace NumberStyle

/-- Positional digits, whole numbers without a point. -/
def plain : NumberStyle := ⟨.away, false, none⟩

/-- A point in every number, and an exponent for the very large and the very small. -/
def scientific : NumberStyle := ⟨.even, true, some (-5, 15)⟩

/-- Positional digits: zeros are filled in up to the point on either side. -/
def position (style : NumberStyle) (digits : List Char) (exponent : Int) : List Char :=
  let places := (-exponent).toNat
  if places = 0 then
    digits ++ List.replicate exponent.toNat '0' ++ (if style.wholePoint then ['.', '0'] else [])
  else
    let padded := List.replicate (places + 1 - digits.length) '0' ++ digits
    let split := padded.length - places
    padded.take split ++ '.' :: padded.drop split

/-- One digit, a point and the rest where there is a rest, and the exponent with its sign. -/
def scientificDigits (digits : List Char) (power : Int) : List Char :=
  let mantissa :=
    match digits with
    | first :: second :: rest => first :: '.' :: second :: rest
    | short => short
  mantissa ++ 'e' :: (if power < 0 then '-' else '+') :: Nat.toDigits 10 power.natAbs

/-- The digits of a finite magnitude. -/
def magnitude (style : NumberStyle) (magnitude : Nat) : List Char :=
  if magnitude = 0 then style.position ['0'] 0
  else
    let d := Shortest.decimal style.tie magnitude
    let digits := Nat.toDigits 10 d.digits
    let power := d.exponent + digits.length - 1
    match style.positional with
    | none => style.position digits d.exponent
    | some (least, greatest) =>
      if least ≤ power ∧ power ≤ greatest then style.position digits d.exponent
      else scientificDigits digits power

/-- A finite number with its sign; the sign of zero is kept. -/
def finite (style : NumberStyle) (x : Binary64) : String :=
  String.ofList ((if x.negative then ['-'] else []) ++ style.magnitude x.magnitude)

end NumberStyle

/-- A number in the plain style, with words for what is not finite. -/
def Binary64.text (x : Binary64) : String :=
  if x.isNaN then "NaN"
  else if x.isInfinite then (if x.negative then "-inf" else "inf")
  else NumberStyle.plain.finite x

end RemoteCall
