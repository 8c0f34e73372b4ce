import RemoteCall.Path
import RemoteCall.Value.Display

/-!
# Hosts

A host is the application behind a server: it reads, assigns and invokes by path. It is given by its
four operations on a state, so that one protocol serves every application. The failure of a call or
an assignment is a reply of its own.
-/

namespace RemoteCall

/-- A failure inside the application. -/
inductive HostError where
  /-- Nothing lives at the path. -/
  | notFound (path : String)
  /-- What lives at the path cannot be invoked. -/
  | notCallable (path : String)
  /-- A function or an assignment failed. -/
  | failed (code : UInt32) (message : String)
  deriving DecidableEq, Repr

namespace HostError

/-- The code of failures that bring none of their own. -/
def runtimeCode : UInt32 := 2

/-- Nothing lives at the path. -/
def ofMissing (p : Path) : HostError := .notFound p.text

/-- A failure with the usual code. -/
def ofMessage (message : String) : HostError := .failed runtimeCode message

/-- The text that is reported to the peer. -/
def message : HostError → String
  | .notFound path => "undefined value: " ++ path
  | .notCallable path => "undefined function: " ++ path
  | .failed _ message => message

/-- The code that is reported to the peer. -/
def code : HostError → UInt32
  | .notFound _ | .notCallable _ => runtimeCode
  | .failed code _ => code

def isNotFound : HostError → Bool
  | .notFound _ => true
  | _ => false

/-- The failure as shown to a developer. -/
def inspect : HostError → String
  | .notFound path => "NotFound(" ++ Text.quoted path ++ ")"
  | .notCallable path => "NotCallable(" ++ Text.quoted path ++ ")"
  | .failed code message =>
    "Failed \x7b code: " ++ Text.decimal code.toNat ++ ", message: " ++ Text.quoted message ++
      " \x7d"

end HostError

/-- The application behind a server, with state `σ`. -/
structure Host (σ : Type) where
  /-- The value at a path. -/
  resolve : σ → Path → Except HostError Value
  /-- Stores a value under a key of the table at a path; the empty path assigns a global. -/
  assign : σ → Path → Value → Value → Except HostError Unit × σ
  /-- Calls the function at a path. -/
  invoke : σ → Path → List Value → Except HostError (List Value) × σ
  /-- Turns the bytes of an incoming blob into a value. -/
  adopt : σ → List UInt8 → Value × σ

/-- A blob that is kept as it is. -/
def keepBlob {σ : Type} (s : σ) (bytes : List UInt8) : Value × σ := (.blob bytes, s)

end RemoteCall
