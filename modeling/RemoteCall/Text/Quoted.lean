import RemoteCall.Text.Hidden

/-!
# Quoted and decimal text

How values and names are shown between quotes: the quote, the backslash and the common control
characters have short escapes, every other hidden character is written by its code point, and the
rest stands for itself.
-/

namespace RemoteCall.Text

/-- A natural number in decimal digits. -/
def decimal (n : Nat) : String := String.ofList (Nat.toDigits 10 n)

/-- An integer in decimal digits, with a minus sign where it is negative. -/
def signedDecimal (i : Int) : String := (if i < 0 then "-" else "") ++ decimal i.natAbs

/-- One character of quoted text. -/
def escape (c : Char) : List Char :=
  if c = '\x00' then ['\\', '0']
  else if c = '\t' then ['\\', 't']
  else if c = '\n' then ['\\', 'n']
  else if c = '\r' then ['\\', 'r']
  else if c = '"' then ['\\', '"']
  else if c = '\\' then ['\\', '\\']
  else if isHidden c then ['\\', 'u', '\x7b'] ++ Nat.toDigits 16 c.toNat ++ ['\x7d']
  else [c]

/-- The text between double quotes. -/
def quoted (s : String) : String := String.ofList ('"' :: s.toList.flatMap escape ++ ['"'])

/-- Two lower-case hexadecimal digits. -/
def hexByte (b : UInt8) : String :=
  let digits := Nat.toDigits 16 b.toNat
  String.ofList (if digits.length < 2 then '0' :: digits else digits)

/-- Texts with a separator between them. -/
def joined (separator : String) (parts : List String) : String := separator.intercalate parts

end RemoteCall.Text
