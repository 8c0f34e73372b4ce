import RemoteCall.Duration
import RemoteCall.Settings.Address
import RemoteCall.Wire.Format

/-!
# Settings

What a client and a server can be told: time limits, the longest name, the address to listen on, and
a number format that takes the place of the host's own.
-/

namespace RemoteCall

/-- The settings of a client. -/
structure ClientSettings where
  /-- Bound on each read and write. -/
  communicationTimeout : Option Duration := some (.ofSeconds 10)
  /-- Bound on connecting and on waiting for the outcome of a call. -/
  waitTimeout : Option Duration := none
  /-- The longest name in bytes. -/
  maxNameLength : Nat := 19
  /-- The format to announce in place of the host's own. -/
  native : Option Format := none
  deriving DecidableEq, Repr

/-- The format to announce. -/
def ClientSettings.format (s : ClientSettings) : Format := s.native.getD .host

/-- The settings of a server. -/
structure ServerSettings where
  /-- The address to listen on. -/
  address : Address := .v4 0 0 0 0
  /-- The port to listen on; zero picks a free one. -/
  port : Nat := 12346
  /-- How many connections may wait to be accepted. -/
  backlog : Int := 10
  /-- Bound on each read and write on an accepted connection. -/
  communicationTimeout : Option Duration := some (.ofSeconds 10)
  /-- The format to settle with in place of the host's own. -/
  native : Option Format := none
  deriving DecidableEq, Repr

/-- The format to settle with. -/
def ServerSettings.format (s : ServerSettings) : Format := s.native.getD .host

end RemoteCall
