import RemoteCall.Client.Inspect
import RemoteCall.Server.Basic

/-!
# Servers as text

The part of a server's listing for a developer that does not depend on where it listens.
-/

namespace RemoteCall.Server

variable {σ : Type}

/-- The listing from the number of workers on, with this text for the application. -/
def inspect (s : Server σ) (host : σ → String) : String :=
  "workers: " ++ Text.decimal s.workerCount ++ ", host: " ++ host s.host ++ ", native: " ++
    s.native.inspectNative ++ ", stopped: " ++ Text.truth s.stopped ++ ", .. \x7d"

end RemoteCall.Server
