import RemoteCall.Line.HostName
import RemoteCall.Line.Network

/-!
# Destinations

Where a client is told to connect, as text: an endpoint, or else a host and a port around the last
colon. The port after a host may have a plus sign.
-/

namespace RemoteCall

/-- The places of the names that a machine knows itself. -/
abbrev Hosts := String → Option (List Place)

/-- Where a client is told to connect. -/
inductive Destination where
  /-- An endpoint that stands for itself. -/
  | endpoint (e : Endpoint)
  /-- A port at a host. -/
  | named (host : HostName) (port : Nat)
  deriving DecidableEq, Repr

namespace Destination

/-- The failure of a text without host and port. -/
def noEndpoint : IoError := .described .invalidInput "invalid socket address"

/-- The failure of a port that is no number of sixteen bits. -/
def noPort : IoError := .described .invalidInput "invalid port value"

/-- Hosts where nothing but this machine has a name. -/
def localOnly : Hosts := fun name =>
  if name = "localhost" then some [⟨.v4 127 0 0 1, 0⟩] else none

/-- A port number, which may have a plus sign. -/
def port? : List Char → Option Nat
  | '+' :: digits => Endpoint.port? digits
  | digits => Endpoint.port? digits

/-- Reads a destination. -/
def parse (text : String) : Except IoError Destination :=
  match Endpoint.parse? text with
  | some e => .ok (.endpoint e)
  | none =>
    match Text.cutLast ':' text.toList with
    | none => .error noEndpoint
    | some (host, digits) =>
      match port? digits with
      | none => .error noPort
      | some port => .ok (.named (.read (String.ofList host)) port)

/-- The endpoints of a destination. -/
def endpoints (hosts : Hosts) : Destination → Except IoError (List Endpoint)
  | .endpoint e => .ok [e]
  | .named host port => (host.places hosts).map fun places => places.map fun place => ⟨place, port⟩

end Destination

end RemoteCall
