import RemoteCall.Settings.Address
import RemoteCall.Text.Cut

/-!
# Endpoints

An address as one machine sees it, and a port there. An address of version six may be valid on one
of the machine's interfaces only; the number of that interface is its zone. As text, an endpoint is
an address and a decimal port around the last colon, the address of version six in brackets with its
zone after a percent sign.
-/

namespace RemoteCall

/-- An address and the zone that it belongs to, which is zero where it needs none. -/
structure Place where
  address : Address
  zone : Nat := 0
  deriving DecidableEq, Repr

/-- A port at a place. -/
structure Endpoint extends Place where
  port : Nat
  deriving DecidableEq, Repr

/-- The number of a zone. -/
def Place.zone? (digits : List Char) : Option Nat :=
  (Text.number? 10 Text.decimalDigit? digits).filter (· < UInt32.size)

namespace Endpoint

/-- The number of a port, in digits only. -/
def port? (digits : List Char) : Option Nat :=
  (Text.number? 10 Text.decimalDigit? digits).filter (· < UInt16.size)

/-- The place between brackets. -/
def bracketed? (text : List Char) : Option Place :=
  match Text.cut '%' text with
  | [address] => (Address.v6? address).map fun a => ⟨a, 0⟩
  | [address, zone] => do return ⟨← Address.v6? address, ← Place.zone? zone⟩
  | _ => none

/-- The place before a port. -/
def place? : List Char → Option Place
  | '[' :: rest => if rest.getLast? = some ']' then bracketed? rest.dropLast else none
  | text =>
    match Address.octets? text with
    | some [a, b, c, d] => some ⟨.v4 a b c d, 0⟩
    | _ => none

/-- Reads an endpoint. -/
def parse? (text : String) : Option Endpoint := do
  let (place, digits) ← Text.cutLast ':' text.toList
  return ⟨← place? place, ← port? digits⟩

end Endpoint

end RemoteCall
