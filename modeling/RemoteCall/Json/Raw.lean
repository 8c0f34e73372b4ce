import RemoteCall.Text.Digits

/-!
# JSON text taken apart

The grammar of JSON without a view on what numbers and strings mean: a number is kept as its digits
and a string as its code units, so text that nobody will look at is accepted as soon as its form is
right. Reading is a function to the tree and the rest of the text. Its budget is used up by one at
every step down the grammar, and two steps take at least one character, so twice the length is
enough.
-/

namespace RemoteCall.Json

/-- A number as it is written. -/
structure Numeral where
  negative : Bool
  /-- The digits before the point, of which there is at least one. -/
  whole : List Nat
  /-- The digits after the point; without a point there are none. -/
  fraction : List Nat
  exponent : Option Int
  deriving DecidableEq, Repr

/-- A JSON text as it is written. -/
inductive Raw where
  | null
  | bool (b : Bool)
  | number (n : Numeral)
  /-- The code points of a string; an escaped surrogate stands for itself. -/
  | string (units : List Nat)
  | array (items : List Raw)
  /-- Names and values in order. -/
  | object (members : List (List Nat × Raw))

/-- The characters between the parts of a text that mean nothing. -/
def isBlank (c : Char) : Bool := c = ' ' || c = '\n' || c = '\t' || c = '\r'

def skipBlank (s : List Char) : List Char := s.dropWhile isBlank

/-- A sign and the rest. -/
def sign : List Char → Bool × List Char
  | '-' :: rest => (true, rest)
  | s => (false, s)

/-- The part after a point, which is not empty. -/
def fraction? : List Char → Option (List Nat × List Char)
  | '.' :: rest =>
    let (ds, rest) := Text.leadingDigits rest
    if ds.isEmpty then none else some (ds, rest)
  | s => some ([], s)

/-- The digits of an exponent with this sign. -/
def exponentDigits? (negative : Bool) (s : List Char) : Option (Option Int × List Char) :=
  let (ds, rest) := Text.leadingDigits s
  if ds.isEmpty then none
  else
    let power : Int := Text.ofDigits ds
    some (some (if negative then -power else power), rest)

/-- An exponent, with or without a sign. -/
def exponentPower? : List Char → Option (Option Int × List Char)
  | '-' :: rest => exponentDigits? true rest
  | '+' :: rest => exponentDigits? false rest
  | s => exponentDigits? false s

/-- The exponent where there is one. -/
def exponent? : List Char → Option (Option Int × List Char)
  | 'e' :: rest => exponentPower? rest
  | 'E' :: rest => exponentPower? rest
  | s => some (none, s)

/-- A number. Nothing follows a leading zero but a point or an exponent. -/
def numeral? (s : List Char) : Option (Numeral × List Char) := do
  let (negative, s) := sign s
  let (whole, s) := Text.leadingDigits s
  if whole.isEmpty || (whole.head? = some 0 && 1 < whole.length) then none
  else
    let (fraction, s) ← fraction? s
    let (exponent, s) ← exponent? s
    some (⟨negative, whole, fraction, exponent⟩, s)

/-- The unit that four hexadecimal digits spell. -/
def hexUnit? (ds : List Char) : Option Nat := Text.number? 16 Text.hexDigit? ds

/-- The code point that a short escape stands for. -/
def shortEscape? (c : Char) : Option Nat :=
  if c = '"' || c = '\\' || c = '/' then some c.toNat
  else if c = 'b' then some 8
  else if c = 'f' then some 12
  else if c = 'n' then some 10
  else if c = 'r' then some 13
  else if c = 't' then some 9
  else none

/-- The code points of a string up to its closing quote. Control characters have to be escaped. -/
def units? : List Char → Option (List Nat × List Char)
  | [] => none
  | '"' :: rest => some ([], rest)
  | '\\' :: 'u' :: a :: b :: c :: d :: rest => do
    let unit ← hexUnit? [a, b, c, d]
    let (more, rest) ← units? rest
    some (unit :: more, rest)
  | '\\' :: c :: rest => do
    let unit ← shortEscape? c
    let (more, rest) ← units? rest
    some (unit :: more, rest)
  | c :: rest =>
    if c < ' ' || c = '\\' then none
    else do
      let (more, rest) ← units? rest
      some (c.toNat :: more, rest)

mutual

/-- A value. -/
def value? : Nat → List Char → Option (Raw × List Char)
  | 0, _ => none
  | budget + 1, s =>
    match skipBlank s with
    | 'n' :: 'u' :: 'l' :: 'l' :: rest => some (.null, rest)
    | 't' :: 'r' :: 'u' :: 'e' :: rest => some (.bool true, rest)
    | 'f' :: 'a' :: 'l' :: 's' :: 'e' :: rest => some (.bool false, rest)
    | '"' :: rest => (units? rest).map fun (units, rest) => (.string units, rest)
    | '[' :: rest =>
      match skipBlank rest with
      | ']' :: rest => some (.array [], rest)
      | rest => (items? budget rest).map fun (items, rest) => (.array items, rest)
    | '\x7b' :: rest =>
      match skipBlank rest with
      | '\x7d' :: rest => some (.object [], rest)
      | rest => (members? budget rest).map fun (members, rest) => (.object members, rest)
    | s => (numeral? s).map fun (n, rest) => (.number n, rest)

/-- Values between commas up to a closing bracket. -/
def items? : Nat → List Char → Option (List Raw × List Char)
  | 0, _ => none
  | budget + 1, s => do
    let (first, s) ← value? budget s
    match skipBlank s with
    | ']' :: rest => some ([first], rest)
    | ',' :: rest => (items? budget rest).map fun (more, rest) => (first :: more, rest)
    | _ => none

/-- Names and values between commas up to a closing brace. -/
def members? : Nat → List Char → Option (List (List Nat × Raw) × List Char)
  | 0, _ => none
  | budget + 1, s =>
    match skipBlank s with
    | '"' :: rest => do
      let (name, s) ← units? rest
      match skipBlank s with
      | ':' :: rest => do
        let (first, s) ← value? budget rest
        match skipBlank s with
        | '\x7d' :: rest => some ([(name, first)], rest)
        | ',' :: rest => do
          let (more, rest) ← members? budget rest
          some ((name, first) :: more, rest)
        | _ => none
      | _ => none
    | _ => none

end

/-- The tree of a whole text. -/
def Raw.parse? (text : String) : Option Raw := do
  let s := text.toList
  let (tree, rest) ← value? (2 * s.length + 2) s
  if (skipBlank rest).isEmpty then some tree else none

end RemoteCall.Json
