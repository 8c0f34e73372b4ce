import RemoteCall.CommandLine.Arguments
import RemoteCall.Duration
import RemoteCall.Number.Literal
import RemoteCall.Settings.Address
import RemoteCall.Settings.Basic

/-!
# Invocations

The commands of the program: call a function, read or store a value on a server, serve a namespace,
and write default settings to a file. Numbers and addresses among the options are checked while the
arguments are read, so a command that was understood is well formed.
-/

namespace RemoteCall.CommandLine

/-- How to reach a server. -/
inductive Way where
  | network (address : String)
  | serial (device : String) (baud : Nat)
  deriving DecidableEq, Repr

/-- Where a client command goes and under which settings. -/
structure Target where
  way : Way
  /-- A file with client settings. -/
  config : Option String
  /-- Seconds to wait for a result. -/
  wait : Option Binary64
  deriving DecidableEq, Repr

/-- What a client command asks of a server. -/
inductive Request where
  | call (path : String) (arguments : List String)
  | get (path : String)
  | set (path value : String)
  deriving DecidableEq, Repr

/-- How a server command listens; what is given here goes before the settings file. -/
structure Listening where
  address : Option Address
  port : Option Nat
  backlog : Option Int
  /-- A file with server settings. -/
  config : Option String
  /-- The device to serve one peer on, and its speed, instead of listening. -/
  serial : Option (String × Nat)
  deriving DecidableEq, Repr

/-- A command that was understood. -/
inductive Invocation where
  | request (target : Target) (request : Request)
  | serve (listening : Listening)
  /-- Writes default settings, of a server or of a client, to a file. -/
  | config (server : Bool) (path : String)
  deriving DecidableEq, Repr

/-! ## Values of options -/

/-- An integer in a range. -/
def inRange (low high : Int) (text : String) : Bool :=
  match Text.integer? text.toList with
  | some i => low ≤ i && i ≤ high
  | none => false

/-- A natural number of so many bits. -/
def isNatural (bits : Nat) : String → Bool := inRange 0 (Nat.pow 2 bits - 1)

def isAddress (text : String) : Bool := (Address.parse? text).isSome

def isNumber (text : String) : Bool := (Binary64.parse? text).isSome

/-- A file or device has a name. -/
def isPath (text : String) : Bool := !text.isEmpty

/-! ## Shapes -/

/-- The options of every command. -/
def common : List Switch :=
  [{ long := "verbose", short := some 'v', valued := false, repeats := true },
    { long := "help", short := some 'h', valued := false }]

/-- The options of every client command. -/
def targetSwitches : List Switch :=
  [{ long := "addr", short := some 'a' },
    { long := "serial", accepts := isPath },
    { long := "baud", accepts := isNatural 32 },
    { long := "config", accepts := isPath },
    { long := "wait", accepts := isNumber }] ++ common

def serveSwitches : List Switch :=
  [{ long := "address", accepts := isAddress },
    { long := "port", short := some 'p', accepts := isNatural 16 },
    { long := "backlog", accepts := inRange (-2147483648) 2147483647 },
    { long := "config", accepts := isPath },
    { long := "serial", accepts := isPath },
    { long := "baud", accepts := isNatural 32 }] ++ common

def callShape : Shape := ⟨targetSwitches, [{}, { many := true, dashes := true }]⟩

def getShape : Shape := ⟨targetSwitches, [{}]⟩

def setShape : Shape := ⟨targetSwitches, [{}, { dashes := true }]⟩

def serveShape : Shape := ⟨serveSwitches, []⟩

def configShape : Shape :=
  ⟨{ long := "server", valued := false } :: common, [{ accepts := isPath }]⟩

/-- What stands before the command. -/
def programShape : Shape :=
  ⟨{ long := "version", short := some 'V', valued := false } :: common, []⟩

/-! ## Commands -/

/-- The port that servers listen on unless told otherwise. -/
def defaultPort : Nat := ({} : ServerSettings).port

/-- The speed of serial devices unless told otherwise. -/
def defaultBaud : Nat := 115200

/-- A natural number among the options. -/
def Given.natural? (g : Given) (name : String) : Option Nat :=
  ((g.value? name).bind fun text => Text.integer? text.toList).map Int.toNat

/-- Where a client command goes. -/
def Given.target (g : Given) : Target where
  way :=
    match g.value? "serial" with
    | some device => .serial device ((g.natural? "baud").getD defaultBaud)
    | none => .network ((g.value? "addr").getD ("127.0.0.1:" ++ Text.decimal defaultPort))
  config := g.value? "config"
  wait := (g.value? "wait").bind Binary64.parse?

/-- How a server command listens. A device excludes everything that is about listening. -/
def Given.listening (g : Given) : Except Halt Listening := do
  if g.has "serial" && (g.has "address" || g.has "port" || g.has "backlog") then throw .misuse
  return {
    address := (g.value? "address").bind Address.parse?
    port := g.natural? "port"
    backlog := (g.value? "backlog").bind fun text => Text.integer? text.toList
    config := g.value? "config"
    serial := (g.value? "serial").map fun device =>
      (device, (g.natural? "baud").getD defaultBaud) }

/-- The names of the commands. -/
def commandNames : List String := ["serve", "call", "get", "set", "config"]

/-- A command with its arguments. -/
def command (name : String) (arguments : List String) : Except Halt Invocation := do
  match name with
  | "call" =>
    let g ← callShape.read arguments
    return .request g.target (.call (g.values.headD "") (g.values.drop 1))
  | "get" =>
    let g ← getShape.read arguments
    return .request g.target (.get (g.values.headD ""))
  | "set" =>
    let g ← setShape.read arguments
    return .request g.target (.set (g.values.headD "") (g.values.getD 1 ""))
  | "serve" =>
    let g ← serveShape.read arguments
    return .serve (← g.listening)
  | "config" =>
    let g ← configShape.read arguments
    return .config (g.has "server") (g.values.headD "")
  | _ => throw .misuse

/-- Asks for the usage of the program or of a command. -/
def helpOn : List String → Halt
  | [] => .help
  | [name] => if (commandNames ++ ["help"]).contains name then .help else .misuse
  | _ => .misuse

/-- Reads what stands before the command, and then the command. -/
def invocation : Reading → List String → Except Halt Invocation
  | r, [] => do
    r.settled
    throw .misuse
  | r, argument :: rest =>
    if !r.literal && commandNames.contains argument then command argument rest
    else if !r.literal && argument = "help" then throw (helpOn rest)
    else do
      let r ← r.step programShape argument
      invocation r rest

/-- The command that a command line asks for. -/
def Invocation.parse (arguments : List String) : Except Halt Invocation := invocation {} arguments

end RemoteCall.CommandLine
