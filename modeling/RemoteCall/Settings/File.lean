import RemoteCall.Error.Basic
import RemoteCall.Settings.Address
import RemoteCall.Settings.Basic
import RemoteCall.Settings.Codec
import RemoteCall.Text.Utf8
import RemoteCall.Wire.Header

/-!
# Settings files

Settings are kept as a document with every field in its order. What is missing when they are read
keeps its default. Time limits are whole milliseconds of eight bytes, or absent for no limit. A
number format needs all of its parts and has to be one that this side can use.
-/

namespace RemoteCall

namespace Settings

/-! ### Parts that are read -/

namespace Codec

variable (c : Codec)

/-- A natural number of so many bits. -/
def natural? (bits : Nat) (t : c.Tree) : Option Nat :=
  (c.integer? 0 (Nat.pow 2 bits - 1) t).map Int.toNat

/-- Whole milliseconds, or nothing for no limit. -/
def timeout? (t : c.Tree) : Option (Option Duration) :=
  (c.optional? (c.natural? 64) t).map (Option.map Duration.ofMillis)

/-- An address by its text. -/
def address? (t : c.Tree) : Option Address := (c.text? t).bind Address.parse?

end Codec

/-- The kinds of numbers with their names. -/
def kinds : List (String × NumberKind) := [("float", .float), ("integer", .integer)]

/-- The names of the parts of a format. -/
def formatNames : List String := ["little_endian", "width", "kind"]

/-- A format that this side can use. -/
def Codec.format? (c : Codec) (t : c.Tree) : Option Format := do
  match ← c.fields? formatNames t with
  | [littleEndian, width, kind] =>
    let f : Format :=
      { littleEndian := ← c.field? c.truth? none littleEndian
        width := UInt8.ofNat (← c.field? (c.natural? 8) none width)
        kind := ← c.field? (c.variant? kinds) none kind }
    if f.isSupported then some f else none
  | _ => none

/-- The tree of a file, if its bytes are the text of one. -/
def Codec.tree? (c : Codec) (bytes : List UInt8) : Option c.Tree :=
  (Text.decode? bytes).bind c.parse?

/-- The failure of a file that keeps no settings. -/
def refusal (bytes : List UInt8) : IoError :=
  .described .invalidData
    (if (Text.decode? bytes).isSome then "invalid settings"
    else "stream did not contain valid UTF-8")

/-! ### Parts that are written -/

/-- A time limit as whole milliseconds. -/
def timeoutDocument : Option Duration → Document
  | some d => .present (.integer d.millis)
  | none => .absent

/-- The name of a number kind. -/
def kindName : NumberKind → String
  | .float => "float"
  | .integer => "integer"

/-- The parts of a format. -/
def formatDocument (f : Format) : Document :=
  .record [("little_endian", .truth f.littleEndian), ("width", .integer f.width.toNat),
    ("kind", .variant (kindName f.kind))]

/-- A format that may be missing. -/
def nativeDocument : Option Format → Document
  | some f => .present (formatDocument f)
  | none => .absent

end Settings

namespace ClientSettings

variable (c : Settings.Codec)

/-- The fields in order. -/
def fieldNames : List String := ["communication_timeout", "wait_timeout", "max_name_len", "native"]

/-- The settings that a tree spells. -/
def ofTree? (t : c.Tree) : Option ClientSettings := do
  let default : ClientSettings := {}
  match ← c.fields? fieldNames t with
  | [communication, wait, longest, native] =>
    return {
      communicationTimeout :=
        ← c.field? c.timeout? (some default.communicationTimeout) communication
      waitTimeout := ← c.field? c.timeout? (some default.waitTimeout) wait
      maxNameLength := ← c.field? (c.natural? 64) (some default.maxNameLength) longest
      native := ← c.field? (c.optional? c.format?) (some default.native) native }
  | _ => none

/-- The document that keeps the settings. -/
def toDocument (s : ClientSettings) : Settings.Document :=
  .record [("communication_timeout", Settings.timeoutDocument s.communicationTimeout),
    ("wait_timeout", Settings.timeoutDocument s.waitTimeout),
    ("max_name_len", .integer s.maxNameLength),
    ("native", Settings.nativeDocument s.native)]

/-- The settings in the bytes of a file. -/
def load? (bytes : List UInt8) : Option ClientSettings := (c.tree? bytes).bind (ofTree? c)

/-- The settings in the bytes of a file, or why there are none. -/
def load (bytes : List UInt8) : Except IoError ClientSettings :=
  match load? c bytes with
  | some s => .ok s
  | none => .error (Settings.refusal bytes)

/-- The text of a file that keeps the settings. -/
def fileText (s : ClientSettings) : String := c.print s.toDocument

end ClientSettings

namespace ServerSettings

variable (c : Settings.Codec)

/-- The fields in order. -/
def fieldNames : List String := ["address", "port", "backlog", "communication_timeout", "native"]

/-- The settings that a tree spells. -/
def ofTree? (t : c.Tree) : Option ServerSettings := do
  let default : ServerSettings := {}
  match ← c.fields? fieldNames t with
  | [address, port, backlog, communication, native] =>
    return {
      address := ← c.field? c.address? (some default.address) address
      port := ← c.field? (c.natural? 16) (some default.port) port
      backlog :=
        ← c.field? (c.integer? (-2147483648) 2147483647) (some default.backlog) backlog
      communicationTimeout :=
        ← c.field? c.timeout? (some default.communicationTimeout) communication
      native := ← c.field? (c.optional? c.format?) (some default.native) native }
  | _ => none

/-- The document that keeps the settings. -/
def toDocument (s : ServerSettings) : Settings.Document :=
  .record [("address", .text s.address.text), ("port", .integer s.port),
    ("backlog", .integer s.backlog),
    ("communication_timeout", Settings.timeoutDocument s.communicationTimeout),
    ("native", Settings.nativeDocument s.native)]

/-- The settings in the bytes of a file. -/
def load? (bytes : List UInt8) : Option ServerSettings := (c.tree? bytes).bind (ofTree? c)

/-- The settings in the bytes of a file, or why there are none. -/
def load (bytes : List UInt8) : Except IoError ServerSettings :=
  match load? c bytes with
  | some s => .ok s
  | none => .error (Settings.refusal bytes)

/-- The text of a file that keeps the settings. -/
def fileText (s : ServerSettings) : String := c.print s.toDocument

end ServerSettings

end RemoteCall
