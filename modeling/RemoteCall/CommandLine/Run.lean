import RemoteCall.CommandLine.Request
import RemoteCall.Namespace.Stock
import RemoteCall.Serve

/-!
# Running a command

What a command does apart from computing (files, ways to a server, waiting for peers) is asked of
its surroundings, so that a command runs alike in the world and in a test. Every command ends in a
report: the exit code, what was printed and what was complained of.
-/

namespace RemoteCall.CommandLine

/-- How a command ended. -/
structure Report where
  code : Nat := 0
  output : String := ""
  /-- The complaint, without the program's name. -/
  complaint : Option String := none
  deriving DecidableEq, Repr

namespace Report

/-- The name and the version of the program. -/
def versionLine : String := "lrpc 0.3.0\n"

/-- How the program is called. -/
def usage : String :=
  "Usage: lrpc call [OPTIONS] PATH [ARGS]...\n" ++
  "       lrpc get [OPTIONS] PATH\n" ++
  "       lrpc set [OPTIONS] PATH VALUE\n" ++
  "       lrpc serve [OPTIONS]\n" ++
  "       lrpc config [--server] FILE\n"

/-- The report of a command line without a command. -/
def ofHalt : Halt → Report
  | .misuse => { code := 2 }
  | .help => { output := usage }
  | .version => { output := versionLine }

/-- The report of a command that was carried out. -/
def ofOutcome : Except Failure String → Report
  | .ok output => { output }
  | .error failure => { code := 1, complaint := some failure.message }

/-- The complaint as it is printed. -/
def complaintLine (r : Report) : Option String := r.complaint.map ("lrpc: " ++ ·)

end Report

/-- What a command can ask for. -/
structure Surroundings (m : Type → Type) where
  readFile : String → m (Except IoError (List UInt8))
  writeFile : String → List UInt8 → m (Except IoError Unit)
  /-- Runs a client on the way to a server; fails if there is no way. -/
  visit : Way → ClientSettings → (Line → Except Failure String × Line) →
    m (Except Error (Except Failure String))
  /-- Serves one peer on a device; fails if the device does not open. -/
  attend : String → Nat → ServerSettings → Namespace Stock → m (Except Error (Except Error Unit))
  /-- Listens and serves every peer until told to stop; fails if nothing can be bound. -/
  listen : ServerSettings → Namespace Stock → m (Except Error (Except Error Unit))

variable {m : Type → Type} [Monad m]

/-- What is read of a settings file where one is named. -/
def Surroundings.settingsFile (env : Surroundings m) :
    Option String → m (Option (String × Except IoError (List UInt8)))
  | none => return none
  | some path => return some (path, ← env.readFile path)

/-- Carries out a client command. -/
def runRequest (env : Surroundings m) (t : Target) (r : Request) : m (Except Failure String) := do
  match t.settings (← env.settingsFile t.config) with
  | .error failure => return .error failure
  | .ok settings =>
    match ← env.visit t.way settings (r.run t.way settings) with
    | .ok outcome => return outcome
    | .error e => return .error (.unreached t.way e)

/-- The settings of a server command: what it says itself goes before its file. -/
def Listening.settings (l : Listening) (s : ServerSettings) : ServerSettings :=
  { s with
    address := l.address.getD s.address
    port := l.port.getD s.port
    backlog := l.backlog.getD s.backlog }

/-- A command that serves prints nothing by itself. -/
def servedOutcome : Except Error Unit → Except Failure String
  | .ok () => .ok ""
  | .error e => .error (.operation e)

/-- Carries out a server command with the demo namespace. -/
def runServe (env : Surroundings m) (l : Listening) : m (Except Failure String) := do
  match settingsFrom (ServerSettings.load .json) {} (← env.settingsFile l.config) with
  | .error failure => return .error failure
  | .ok settings =>
    let settings := l.settings settings
    match l.serial with
    | some (device, baud) =>
      match ← env.attend device baud settings demo with
      | .ok outcome => return servedOutcome outcome
      | .error e => return .error (.unopened device e)
    | none =>
      match ← env.listen settings demo with
      | .ok outcome => return servedOutcome outcome
      | .error e => return .error (.bind settings.address settings.port e)

/-- Writes default settings to a file and prints its name. -/
def runConfig (env : Surroundings m) (server : Bool) (path : String) :
    m (Except Failure String) := do
  let text := if server then ServerSettings.fileText .json {} else ClientSettings.fileText .json {}
  match ← env.writeFile path (Text.bytes text) with
  | .ok () => return .ok (Request.line path)
  | .error e => return .error (.write path e)

/-- Runs a command line. -/
def run (env : Surroundings m) (arguments : List String) : m Report := do
  match Invocation.parse arguments with
  | .error halt => return .ofHalt halt
  | .ok (.request target request) => return .ofOutcome (← runRequest env target request)
  | .ok (.serve listening) => return .ofOutcome (← runServe env listening)
  | .ok (.config server path) => return .ofOutcome (← runConfig env server path)

end RemoteCall.CommandLine
