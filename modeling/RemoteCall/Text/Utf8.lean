/-!
# Text as bytes

UTF-8 in both directions. Reading is a scanner that stands either between two characters or inside
one that owes further bytes; the bounds on the next byte exclude overlong forms, surrogates and
values beyond the last plane, so the bytes taken before a refusal are exactly one maximal invalid
part. Strict decoding accepts no such part, lenient decoding writes U+FFFD for each.
-/

namespace RemoteCall.Text

/-- The UTF-8 bytes of a text. -/
def bytes (s : String) : List UInt8 := s.toList.flatMap String.utf8EncodeChar

/-- Where the scanner stands. -/
inductive Scan where
  /-- Between two characters. -/
  | start
  /-- Inside a character that owes `count + 1` more bytes, the next one between `low` and `high`.
  The bits read so far are in `value`. -/
  | owing (value count low high : Nat)
  deriving DecidableEq, Repr

/-- What the first byte of a character announces; `none` for a byte that begins none. -/
def lead (b : Nat) : Option Scan :=
  if b < 0xC2 then none
  else if b < 0xE0 then some (.owing (b - 0xC0) 0 0x80 0xBF)
  else if b = 0xE0 then some (.owing 0 1 0xA0 0xBF)
  else if b = 0xED then some (.owing 13 1 0x80 0x9F)
  else if b < 0xF0 then some (.owing (b - 0xE0) 1 0x80 0xBF)
  else if b = 0xF0 then some (.owing 0 2 0x90 0xBF)
  else if b < 0xF4 then some (.owing (b - 0xF0) 2 0x80 0xBF)
  else if b = 0xF4 then some (.owing 4 2 0x80 0x8F)
  else none

/-- A byte read between two characters, with the pieces found so far, newest first. -/
def begin (found : List (Option Char)) (b : Nat) : Scan × List (Option Char) :=
  if b < 0x80 then (.start, some (Char.ofNat b) :: found)
  else
    match lead b with
    | some state => (state, found)
    | none => (.start, none :: found)

/-- One byte. A byte that the open character does not allow ends it as an invalid part and is then
read afresh. -/
def step : Scan × List (Option Char) → UInt8 → Scan × List (Option Char)
  | (.start, found), b => begin found b.toNat
  | (.owing value count low high, found), b =>
    if low ≤ b.toNat ∧ b.toNat ≤ high then
      let value := value * 64 + b.toNat % 64
      match count with
      | 0 => (.start, some (Char.ofNat value) :: found)
      | count + 1 => (.owing value count 0x80 0xBF, found)
    else begin (none :: found) b.toNat

/-- The characters of a byte string in order, with `none` for each maximal invalid part. -/
def pieces (bs : List UInt8) : List (Option Char) :=
  match bs.foldl step (.start, []) with
  | (.start, found) => found.reverse
  | (.owing .., found) => (none :: found).reverse

/-- The text, if the bytes are valid throughout. -/
def decode? (bs : List UInt8) : Option String :=
  let found := pieces bs
  if found.all Option.isSome then some (String.ofList (found.filterMap id)) else none

/-- The text with U+FFFD for each invalid part. -/
def decodeLossy (bs : List UInt8) : String :=
  String.ofList ((pieces bs).map (·.getD '\uFFFD'))

end RemoteCall.Text
