import RemoteCall.Line.Endpoint
import RemoteCall.Line.Network

/-!
# A machine on its own

What the network of a machine does that is joined to no other and not even to itself: nothing can be
reached, and for version six nothing but the unspecified address can be listened on. How an attempt
fails depends on the kind of its address.
-/

namespace RemoteCall

namespace Address

/-- An address for many receivers. -/
def isMulticast (groups : List UInt16) : Bool := groups.headD 0 / 256 = 0xff

/-- An address that is valid on one interface only. -/
def isLinkLocal (groups : List UInt16) : Bool := groups.headD 0 / 64 = 0x3fa

/-- The address that stands for every one. -/
def isUnspecified (groups : List UInt16) : Bool := groups.all (· = 0)

end Address

namespace Network

/-- The failure of an address that needs a zone and has none, or that cannot be listened on. -/
def badAddress : IoError := .system 22

/-- The failure of an address that needs one of the same kind on this machine. -/
def noOwnAddress : IoError := .system 99

/-- A network on which nothing can be reached. -/
def isolated : Network Endpoint := fun e =>
  .error <|
    match e.address with
    | .v4 .. => unreachable
    | .v6 groups =>
      if Address.isMapped groups || Address.isMulticast groups then unreachable
      else if Address.isLinkLocal groups && e.zone = 0 then badAddress
      else noOwnAddress

/-- Whether a machine on its own can listen on an address. -/
def listenable : Address → Except IoError Unit
  | .v4 .. => .ok ()
  | .v6 groups =>
    if Address.isMapped groups || Address.isUnspecified groups then .ok ()
    else if Address.isMulticast groups || Address.isLinkLocal groups then .error badAddress
    else .error noOwnAddress

end Network

end RemoteCall
