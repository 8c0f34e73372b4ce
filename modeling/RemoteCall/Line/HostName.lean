import RemoteCall.Error.System
import RemoteCall.Line.Endpoint
import RemoteCall.Wire.Format

/-!
# Host names

The text of a host as it is looked up. An address of version four may be written in one to four
numbers, each decimal, octal after a zero or hexadecimal after `0x`; the last one fills the bytes
that the others leave. An address of version six is written as usual, with the number of its zone
after a percent sign. Every other text is a name. A name that the machine does not know itself is
asked for elsewhere if it is made of labels as names are, and refused at once if it is not.
-/

namespace RemoteCall

/-- What the text of a host says. -/
inductive HostName where
  /-- An address in numbers. -/
  | numbers (place : Place)
  /-- An address in numbers whose zone is no number. -/
  | badZone
  | name (text : String)
  deriving DecidableEq, Repr

namespace HostName

/-! ## Addresses in numbers -/

def octalDigit? (c : Char) : Option Nat := (Text.decimalDigit? c).filter (· < 8)

/-- A number of an address. -/
def part? : List Char → Option Nat
  | '0' :: 'x' :: rest => Text.number? 16 Text.hexDigit? rest
  | '0' :: 'X' :: rest => Text.number? 16 Text.hexDigit? rest
  | '0' :: rest => Text.number? 8 octalDigit? ('0' :: rest)
  | digits => Text.number? 10 Text.decimalDigit? digits

/-- The address that numbers spell: one byte each, and in the last one all that are left. -/
def ofParts? (parts : List Nat) : Option Address :=
  match parts.reverse with
  | [] => none
  | last :: leading =>
    let left := 4 - leading.length
    if leading.all (· < 256) && last < Nat.pow 256 left then
      match leading.reverse.map UInt8.ofNat ++ (lowBytes left last).reverse with
      | [a, b, c, d] => some (.v4 a b c d)
      | _ => none
    else none

/-- Reads the text of a host. -/
def read (text : String) : HostName :=
  match ((Text.cut '.' text.toList).mapM part?).bind ofParts? with
  | some address => .numbers ⟨address, 0⟩
  | none =>
    match Address.v6? (text.toList.takeWhile (· ≠ '%')) with
    | none => .name text
    | some address =>
      match text.toList.dropWhile (· ≠ '%') with
      | [] => .numbers ⟨address, 0⟩
      | _ :: digits =>
        match Place.zone? digits with
        | some zone => .numbers ⟨address, zone⟩
        | none => .badZone

/-! ## Names -/

/-- A label of a name. -/
def isLabel (label : List Char) : Bool :=
  !label.isEmpty && label.length ≤ 63 && label.all fun c => c.isAlphanum || c = '-' || c = '_'

/-- The text of a name without the dot at its end. -/
def undotted (name : List Char) : List Char :=
  if name.getLast? = some '.' then name.dropLast else name

/-- The name can be asked for. A dot alone is the name above all others. -/
def isQueryable (name : String) : Bool :=
  let text := undotted name.toList
  name = "." ||
    (text.head? ≠ some '-' && text.length ≤ 253 && (Text.cut '.' text).all isLabel)

/-- The failure of a lookup, for this reason. -/
def lookupFailure (reason : String) : IoError :=
  .described .other ("failed to lookup address information: " ++ reason)

/-- Nobody can answer for now. -/
def noAnswer : IoError := lookupFailure "Temporary failure in name resolution"

/-- There is no such name. -/
def unknown : IoError := lookupFailure "Name or service not known"

/-- The places of a host, with the names that the machine knows itself, in lower case. Nobody else
answers. -/
def places (known : String → Option (List Place)) : HostName → Except IoError (List Place)
  | .numbers place => .ok [place]
  | .badZone => .error unknown
  | .name text =>
    match known text.toLower with
    | some places => .ok places
    | none => .error (if isQueryable text then noAnswer else unknown)

end HostName

end RemoteCall
