import RemoteCall.Text.Quoted

/-!
# Durations

Whole seconds and nanoseconds. Settings files keep whole milliseconds in 64 bits, so a duration is
cut to milliseconds and wrapped on the way out; listings show the largest unit that leaves a whole
part, with the fraction's trailing zeros dropped.
-/

namespace RemoteCall

/-- A span of time. -/
structure Duration where
  seconds : Nat
  /-- Below one second. -/
  nanos : Nat
  deriving DecidableEq, Repr

namespace Duration

def ofSeconds (seconds : Nat) : Duration := ⟨seconds, 0⟩

def ofMillis (millis : Nat) : Duration := ⟨millis / 1000, millis % 1000 * 1000000⟩

/-- Seconds and any number of nanoseconds. -/
def ofParts (seconds nanos : Nat) : Duration :=
  ⟨seconds + nanos / 1000000000, nanos % 1000000000⟩

/-- Whole milliseconds in 64 bits. -/
def millis (d : Duration) : Nat := (d.seconds * 1000 + d.nanos / 1000000) % UInt64.size

def isZero (d : Duration) : Bool := d.seconds = 0 && d.nanos = 0

/-- A whole part and a fraction of `digits` decimal places without trailing zeros. -/
def fixed (whole fraction digits : Nat) : String :=
  let places := Nat.toDigits 10 fraction
  let padded := List.replicate (digits - places.length) '0' ++ places
  let kept := (padded.reverse.dropWhile (· = '0')).reverse
  Text.decimal whole ++ (if fraction = 0 then "" else "." ++ String.ofList kept)

/-- The duration with its unit. -/
def text (d : Duration) : String :=
  if 0 < d.seconds then fixed d.seconds d.nanos 9 ++ "s"
  else if 1000000 ≤ d.nanos then fixed (d.nanos / 1000000) (d.nanos % 1000000) 6 ++ "ms"
  else if 1000 ≤ d.nanos then fixed (d.nanos / 1000) (d.nanos % 1000) 3 ++ "µs"
  else Text.decimal d.nanos ++ "ns"

end Duration

end RemoteCall
