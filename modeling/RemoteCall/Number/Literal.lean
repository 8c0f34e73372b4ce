import RemoteCall.Number.Binary64
import RemoteCall.Text.Digits

/-!
# Numbers read from text

A decimal number with an optional sign, point and exponent, or one of the words for infinity and
not-a-number in any case. The result is the nearest number; exponents far out of range are settled
without working out the power of ten.
-/

namespace RemoteCall

/-- A decimal number as it is written: `digits * 10 ^ exponent`. -/
structure Literal where
  negative : Bool
  digits : Nat
  exponent : Int
  deriving DecidableEq, Repr

namespace Literal

/-- A sign and the rest. -/
def sign : List Char → Bool × List Char
  | '-' :: rest => (true, rest)
  | '+' :: rest => (false, rest)
  | s => (false, s)

/-- The digits after a point, where there is one. -/
def fraction : List Char → List Nat × List Char
  | '.' :: rest => Text.leadingDigits rest
  | s => ([], s)

/-- An exponent up to the end of the text, or nothing more. -/
def exponent? : List Char → Option Int
  | [] => some 0
  | 'e' :: rest => Text.integer? rest
  | 'E' :: rest => Text.integer? rest
  | _ => none

/-- Reads a number without words. -/
def parse? (s : List Char) : Option Literal := do
  let (negative, s) := sign s
  let (whole, s) := Text.leadingDigits s
  let (fraction, s) := fraction s
  if whole.isEmpty && fraction.isEmpty then none
  else
    let exponent ← exponent? s
    some ⟨negative, Text.ofDigits (whole ++ fraction), exponent - fraction.length⟩

/-- A power of ten beyond which every number is infinite and, of the other sign, every number with
fewer digits is zero. -/
def farPower : Int := 400

/-- The nearest number. -/
def value (n : Literal) : Binary64 :=
  let places := (Nat.toDigits 10 n.digits).length
  if n.digits = 0 then .ofMagnitude n.negative 0
  else if farPower < n.exponent + places then .infinity n.negative
  else if n.exponent + places < -farPower then .ofMagnitude n.negative 0
  else .ofRatio n.negative (n.digits * Nat.pow 10 n.exponent.toNat)
      (Nat.pow 10 (-n.exponent).toNat)

end Literal

/-- The words for what is not finite, without a sign and in lower case. -/
def Binary64.ofWord? (word : String) : Option Binary64 :=
  if word = "inf" ∨ word = "infinity" then some (.infinity false)
  else if word = "nan" then some (.ofMagnitude false (FloatLayout.double.infinity + quietBit))
  else none

/-- Reads a number. -/
def Binary64.parse? (text : String) : Option Binary64 :=
  let s := text.toList
  match Literal.parse? s with
  | some n => some n.value
  | none =>
    let (negative, word) := Literal.sign s
    (Binary64.ofWord? (String.ofList (word.map Char.toLower))).map fun x =>
      if negative then x.neg else x

end RemoteCall
