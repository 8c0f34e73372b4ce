import RemoteCall.Wire.Header

/-!
# Writing values

A value is a tag and its payload; tables have no length but an end mark. Writing is a pure function
to an *emission*: the bytes produced, and the error that stopped the writer if one did, so that what
had gone out before a refusal is part of the answer.
-/

namespace RemoteCall

/-- Bytes to be sent, and the error that cut them short. -/
structure Emission where
  bytes : List UInt8
  failure : Option Error
  deriving DecidableEq, Repr

namespace Emission

/-- Bytes without a failure. -/
def ofBytes (bytes : List UInt8) : Emission := ⟨bytes, none⟩

/-- A failure before any byte. -/
def fail (e : Error) : Emission := ⟨[], some e⟩

/-- One emission after another; nothing follows a failure. -/
def append (a b : Emission) : Emission :=
  match a.failure with
  | some _ => a
  | none => ⟨a.bytes ++ b.bytes, b.failure⟩

instance : Append Emission := ⟨append⟩

def byte (b : UInt8) : Emission := ofBytes [b]

def tag (t : Tag) : Emission := byte t.toByte

/-- A length or code. -/
def word (f : Format) (v : UInt32) : Emission := ofBytes (f.wordBytes v)

/-- A number without its tag. -/
def number (f : Format) (x : Binary64) : Emission := ofBytes (f.numberBytes x)

/-- A byte string with its length, without its tag. One that is too long is refused before its
length goes out. -/
def string (f : Format) (bytes : List UInt8) : Emission :=
  let size := bytes.length
  if maxString < size then fail (.protocol (.oversized size))
  else word f (UInt32.ofNat size) ++ ofBytes bytes

/-- A text with its length. -/
def text (f : Format) (s : String) : Emission := string f (Text.bytes s)

mutual

/-- A value inside `depth` tables. -/
def value (f : Format) : Nat → Value → Emission
  | _, .nil => tag .nil
  | _, .boolean b => tag .boolean ++ byte (if b then 1 else 0)
  | _, .number n => tag .number ++ number f n.value
  | _, .string bytes => tag .string ++ string f bytes
  | depth, .table pairs =>
    if maxDepth ≤ depth then fail (.protocol .tooDeep)
    else tag .table ++ (entries f (depth + 1) pairs ++ tag .tableEnd)
  | _, .blob bytes => tag .blob ++ (tag .string ++ (string f bytes ++ tag .blobEnd))
  | _, .remote path => tag .remote ++ text f path

/-- The pairs of a table, keys before their values. -/
def entries (f : Format) : Nat → List (Value × Value) → Emission
  | _, [] => ofBytes []
  | depth, (k, v) :: rest => value f depth k ++ (value f depth v ++ entries f depth rest)

end

end Emission

/-- The emission of a value that stands on its own. -/
def Value.encode (f : Format) (v : Value) : Emission := Emission.value f 0 v

end RemoteCall
