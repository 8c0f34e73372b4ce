/-!
# Digits

Numbers that text spells: the digits at the front of a text, and whole texts of digits in some base,
with or without a sign.
-/

namespace RemoteCall.Text

/-- The value of a decimal digit. -/
def decimalDigit? (c : Char) : Option Nat :=
  if '0' ≤ c ∧ c ≤ '9' then some (c.toNat - '0'.toNat) else none

/-- The value of a hexadecimal digit. -/
def hexDigit? (c : Char) : Option Nat :=
  if '0' ≤ c ∧ c ≤ '9' then some (c.toNat - '0'.toNat)
  else if 'a' ≤ c ∧ c ≤ 'f' then some (c.toNat - 'a'.toNat + 10)
  else if 'A' ≤ c ∧ c ≤ 'F' then some (c.toNat - 'A'.toNat + 10)
  else none

/-- The number that a text of digits of a base spells, of which there is at least one. -/
def number? (base : Nat) (digit? : Char → Option Nat) (s : List Char) : Option Nat :=
  if s.isEmpty then none else s.foldlM (fun n c => (digit? c).map (n * base + ·)) 0

/-- The integer that decimal digits spell, with a sign where there is one. -/
def integer? : List Char → Option Int
  | '-' :: rest => (number? 10 decimalDigit? rest).map fun n => -(n : Int)
  | '+' :: rest => (number? 10 decimalDigit? rest).map fun n => (n : Int)
  | s => (number? 10 decimalDigit? s).map fun n => (n : Int)

/-- The decimal digits at the front and the rest. -/
def leadingDigits (s : List Char) : List Nat × List Char :=
  ((s.takeWhile Char.isDigit).map fun c => c.toNat - '0'.toNat, s.dropWhile Char.isDigit)

/-- The natural number with these decimal digits. -/
def ofDigits (ds : List Nat) : Nat := ds.foldl (fun n d => n * 10 + d) 0

end RemoteCall.Text
