import RemoteCall.Error.Basic

/-!
# Handshake headers

Each side announces its format in eight bytes: the magic `LRPC`, the protocol version, the byte
order, the width and the kind. The server settles both formats into one that either side can handle:
big-endian unless both are little-endian, the smaller width, and integers as soon as one side has
only those.
-/

namespace RemoteCall

/-- The bytes that open every header. -/
def magic : List UInt8 := [0x4c, 0x52, 0x50, 0x43]

/-- The version of the protocol; another one is refused. -/
def protocolVersion : UInt8 := 3

/-- Bytes in a header. -/
def headerLength : Nat := 8

namespace NumberKind

def toByte : NumberKind → UInt8
  | .float => 0
  | .integer => 1

def ofByte? (b : UInt8) : Option NumberKind :=
  if b = 0 then some .float else if b = 1 then some .integer else none

@[simp] theorem ofByte?_toByte (k : NumberKind) : ofByte? k.toByte = some k := by cases k <;> rfl

end NumberKind

namespace Format

/-- The format, unless its width does not fit its kind. -/
def check (f : Format) : Except Error Format :=
  if f.isSupported then .ok f else .error (.header (.width f.kind f.width))

end Format

/-- A handshake header. -/
structure Header where
  version : UInt8
  littleEndian : Bool
  width : UInt8
  kind : NumberKind
  deriving DecidableEq, Repr

namespace Header

/-- The header that announces a format. -/
def ofFormat (f : Format) : Header := ⟨protocolVersion, f.littleEndian, f.width, f.kind⟩

/-- The format that a header announces. -/
def format (h : Header) : Format := ⟨h.littleEndian, h.width, h.kind⟩

/-- The eight bytes of a header. -/
def encode (h : Header) : List UInt8 :=
  magic ++ [h.version, if h.littleEndian then 1 else 0, h.width, h.kind.toByte]

/-- Reads and checks a header: first the magic, then the version, the kind and the width. Any byte
but zero announces little-endian order. -/
def decode (bytes : List UInt8) : Except Error Header :=
  match bytes with
  | [m₀, m₁, m₂, m₃, version, order, width, kindByte] =>
    if [m₀, m₁, m₂, m₃] ≠ magic then .error (.header (.badMagic [m₀, m₁, m₂, m₃]))
    else if version ≠ protocolVersion then .error (.header (.version version protocolVersion))
    else
      match NumberKind.ofByte? kindByte with
      | none => .error (.header (.unknownKind kindByte))
      | some kind =>
        if Format.supports kind width then .ok ⟨version, order ≠ 0, width, kind⟩
        else .error (.header (.width kind width))
  | _ => .error (.header (.badMagic (bytes.take 4)))

end Header

/-- The format on which a server with format `own` settles with a peer. -/
def Format.reconcile (own : Format) (peer : Header) : Format where
  littleEndian := own.littleEndian && peer.littleEndian
  width := if own.width ≤ peer.width then own.width else peer.width
  kind := if peer.kind = own.kind then own.kind else .integer

end RemoteCall
