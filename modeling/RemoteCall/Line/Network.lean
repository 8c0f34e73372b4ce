import RemoteCall.Error.Basic

/-!
# Networks

A network is given by what becomes of an attempt to reach an address. Connecting tries the addresses
of a destination in order and settles for the first that answers; when none does, the last failure
is the one reported.
-/

namespace RemoteCall

/-- The outcome of an attempt to reach each address. -/
abbrev Network (α : Type) := α → Except IoError Unit

namespace Network

variable {α : Type}

/-- The failure on a network that leads nowhere. -/
def unreachable : IoError := .system 101

/-- A destination without addresses. -/
def noAddress : IoError := .described .invalidInput "address resolved to nothing"

/-- The outcome of the first attempt that succeeds, or else the last failure. -/
def firstReached {m : Type → Type} [Monad m] {β : Type} (attempt : α → m (Except IoError β))
    (last : IoError) : List α → m (Except IoError β)
  | [] => return .error last
  | address :: rest => do
    match ← attempt address with
    | .ok reached => return .ok reached
    | .error e => firstReached attempt e rest

/-- Reaches one of the addresses of a destination. -/
def connect (n : Network α) (addresses : List α) : Except Error α :=
  let outcome := Id.run (firstReached (fun address => (n address).map fun _ => address) noAddress
    addresses)
  outcome.mapError Error.ofIo

end Network

end RemoteCall
