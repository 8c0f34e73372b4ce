import RemoteCall.Client.Proxy
import RemoteCall.CommandLine.Invocation
import RemoteCall.Json.Print
import RemoteCall.Settings.File
import RemoteCall.Settings.Json
import RemoteCall.Value.Json

/-!
# Client commands

A client command opens a handle, performs one operation on it, closes it and prints what came back:
each result of a call on a line of its own, a value that was read in the indented layout. A path is
indexed name by name. A path to be assigned is first cut at its last dot, wherever that is: what
follows is the key as it stands, even when it is empty, and what precedes is the path of the table.
-/

namespace RemoteCall.CommandLine

/-- Why a number of seconds is no duration. -/
inductive WaitFault where
  | negative
  | tooBig
  deriving DecidableEq, Repr

def WaitFault.message : WaitFault → String
  | .negative => "cannot convert float seconds to Duration: value is negative"
  | .tooBig => "cannot convert float seconds to Duration: value is either too big or NaN"

/-- Why a command failed. -/
inductive Failure where
  | write (path : String) (error : IoError)
  | load (path : String) (error : IoError)
  | wait (fault : WaitFault)
  /-- No way to a server was found or no handle opened on it. -/
  | unreached (way : Way) (error : Error)
  /-- The device to serve on does not open. -/
  | unopened (device : String) (error : Error)
  | bind (address : Address) (port : Nat) (error : Error)
  /-- A path without names. -/
  | emptyPath
  /-- The operation failed. -/
  | operation (error : Error)
  deriving DecidableEq, Repr

/-- The text of a failure: what was tried, and then why it failed. -/
def Failure.message : Failure → String
  | .write path e => "failed to write " ++ path ++ ": " ++ e.message
  | .load path e => "failed to load " ++ path ++ ": " ++ e.message
  | .wait fault => "invalid --wait: " ++ fault.message
  | .unreached (.network address) e => "failed to connect to " ++ address ++ ": " ++ e.message
  | .unreached (.serial device _) e => "failed to open " ++ device ++ ": " ++ e.message
  | .unopened device e => "failed to open " ++ device ++ ": " ++ e.message
  | .bind address port e =>
    "failed to bind " ++ address.text ++ ":" ++ Text.decimal port ++ ": " ++ e.message
  | .emptyPath => "empty path"
  | .operation e => e.message

/-! ## Settings -/

/-- Seconds as a duration, rounded to nanoseconds, of two equally near ones to the even. -/
def duration (x : Binary64) : Except WaitFault Duration :=
  let one := FloatLayout.double.one
  if x.isNaN then .error .tooBig
  else if x.negative && !x.isZero then .error .negative
  else if !x.isFinite || UInt64.size * one ≤ x.units then .error .tooBig
  else .ok (.ofParts 0 (roundHalfEven (x.units * 1000000000) one))

/-- Settings from what was read of their file; without a file, the default ones. -/
def settingsFrom {α : Type} (load : List UInt8 → Except IoError α) (default : α) :
    Option (String × Except IoError (List UInt8)) → Except Failure α
  | none => .ok default
  | some (path, content) => (content.bind load).mapError (.load path)

/-- The settings of a client command. -/
def Target.settings (t : Target) (file : Option (String × Except IoError (List UInt8))) :
    Except Failure ClientSettings := do
  let settings ← settingsFrom (ClientSettings.load .json) {} file
  match t.wait with
  | none => return settings
  | some seconds =>
    match duration seconds with
    | .ok wait => return { settings with waitTimeout := some wait }
    | .error fault => throw (.wait fault)

/-! ## Operations -/

/-- A computation on a handle that may fail as a command. -/
abbrev Commanding (α : Type) := ExceptT Failure (StateM Handle) α

namespace Commanding

/-- An operation whose failure is the command's. -/
def operate {α : Type} (act : Calling α) : Commanding α := fun h =>
  let (outcome, h) := act h
  (outcome.mapError .operation, h)

/-- The proxy at a path, indexed name by name. -/
def proxy (settings : ClientSettings) (path : String) : Except Failure Proxy :=
  match (Path.parse path).segments with
  | [] => .error .emptyPath
  | first :: rest => (Proxy.chain settings first rest).mapError .operation

/-- Performs an operation on the proxy at a path. -/
def onProxy {α : Type} (path : String) (act : Proxy → Calling α) : Commanding α := do
  let p ← MonadExcept.ofExcept (proxy (← get).settings path)
  operate (act p)

end Commanding

namespace Request

/-- The text before the last dot and the text after it. -/
def cutLast (path : String) : Option (String × String) :=
  (Text.cutLast '.' path.toList).map fun (table, key) => (String.ofList table, String.ofList key)

/-- A text on a line of its own. -/
def line (text : String) : String := text ++ "\n"

/-- The operation of a command, and what it prints. -/
def perform : Request → Commanding String
  | .call path arguments => do
    let results ← Commanding.onProxy path fun p => p.call (arguments.map Value.ofArgument)
    return String.join (results.map fun v => line v.toJson.compact)
  | .get path => do
    let v ← Commanding.onProxy path Proxy.get
    return line v.toJson.pretty
  | .set path value => do
    let v := Value.ofArgument value
    match cutLast path with
    | some (table, key) => Commanding.onProxy table fun p => p.set (.ofText key) v
    | none => Commanding.operate (Handle.set (.ofText path) v)
    return ""

/-- The whole command on a line to a server. -/
def run (r : Request) (way : Way) (settings : ClientSettings) (line : Line) :
    Except Failure String × Line :=
  match Handle.ofLine line settings with
  | (.error e, conn) => (.error (.unreached way e), conn.line)
  | (.ok h, _) =>
    let (outcome, h) := r.perform h
    (outcome, h.close.conn.line)

end Request

end RemoteCall.CommandLine
