import RemoteCall.Value.Basic

/-!
# Number formats

A format fixes the byte order of every multi-byte field of a connection and the width and kind of
its numbers. Bytes are produced and read least significant first and turned round for big-endian
formats, so both orders share one definition. Narrowing to an integer width truncates toward zero
and saturates at the bounds of the width.
-/

namespace RemoteCall

/-- The `count` low bytes of a natural number, least significant first. -/
def lowBytes : Nat → Nat → List UInt8
  | 0, _ => []
  | count + 1, n => UInt8.ofNat n :: lowBytes count (n / 256)

/-- The natural number with these bytes, least significant first. -/
def ofLowBytes : List UInt8 → Nat
  | [] => 0
  | b :: rest => b.toNat + 256 * ofLowBytes rest

/-- The two's complement pattern of an integer in `bits` bits. -/
def toTwosComplement (bits : Nat) (i : Int) : Nat := (i % Nat.pow 2 bits).toNat

/-- The integer with this two's complement pattern of `bits` bits. -/
def ofTwosComplement (bits : Nat) (n : Nat) : Int :=
  if n < Nat.pow 2 (bits - 1) then n else (n : Int) - Nat.pow 2 bits

/-- How numbers and lengths are laid out on one connection, or inside one process. -/
structure Format where
  littleEndian : Bool
  /-- Bytes per number. -/
  width : UInt8
  kind : NumberKind
  deriving DecidableEq, Repr

namespace Format

/-- Eight-byte floats, least significant byte first. -/
def host : Format := ⟨true, 8, .float⟩

instance : Inhabited Format := ⟨host⟩

/-- The widths that numbers of a kind can have. -/
def supports : NumberKind → UInt8 → Bool
  | .integer, w => w = 1 || w = 2 || w = 4 || w = 8
  | .float, w => w = 4 || w = 8

/-- The width fits the kind. -/
def isSupported (f : Format) : Bool := supports f.kind f.width

/-- Bytes in the order of the format, from least significant first or back. -/
def ordered (f : Format) (bytes : List UInt8) : List UInt8 :=
  if f.littleEndian then bytes else bytes.reverse

/-- The four bytes of a length or code. -/
def wordBytes (f : Format) (v : UInt32) : List UInt8 := f.ordered (lowBytes 4 v.toNat)

/-- The length or code in four bytes. -/
def wordOf (f : Format) (bytes : List UInt8) : UInt32 := UInt32.ofNat (ofLowBytes (f.ordered bytes))

/-- The bytes of an integer, clamped to the width. -/
def integerBytes (width : Nat) (x : Binary64) : List UInt8 :=
  lowBytes width (toTwosComplement (8 * width) (x.clamp (8 * width)))

/-- The bytes of a number, least significant first. -/
def lowNumberBytes (f : Format) (x : Binary64) : List UInt8 :=
  match f.kind with
  | .integer =>
    if f.width = 1 then integerBytes 1 x
    else if f.width = 2 then integerBytes 2 x
    else if f.width = 4 then integerBytes 4 x
    else integerBytes 8 x
  | .float =>
    if f.width = 4 then lowBytes 4 x.toSingleBits.toNat else lowBytes 8 x.bits.toNat

/-- The bytes of a number. -/
def numberBytes (f : Format) (x : Binary64) : List UInt8 := f.ordered (f.lowNumberBytes x)

/-- The number in at most eight bytes. Lengths without a layout of their own are extended by zero
bytes to eight. -/
def numberOf (f : Format) (bytes : List UInt8) : Binary64 :=
  let low := f.ordered (bytes.take 8)
  let n := ofLowBytes low
  match f.kind with
  | .integer =>
    if low.length = 1 then Binary64.ofInt (ofTwosComplement 8 n)
    else if low.length = 2 then Binary64.ofInt (ofTwosComplement 16 n)
    else if low.length = 4 then Binary64.ofInt (ofTwosComplement 32 n)
    else Binary64.ofInt (ofTwosComplement 64 n)
  | .float =>
    if low.length = 4 then Binary64.ofSingleBits (UInt32.ofNat n) else ⟨UInt64.ofNat n⟩

/-- A number as the other side of this format sees it. -/
def quantise (f : Format) (x : Binary64) : Number := ⟨f.numberOf (f.numberBytes x), f.kind⟩

end Format

/-- The word for a kind in messages. -/
def NumberKind.name : NumberKind → String
  | .float => "Float"
  | .integer => "Integer"

end RemoteCall
