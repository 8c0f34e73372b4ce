import RemoteCall.Client.Handle

/-!
# Proxies

A proxy collects names until an operation is due; building one touches no byte. Names may hold dots
and may be empty, and the path is what their joined text says. A call whose last name is `get` reads
what the names before it say.
-/

namespace RemoteCall

/-- A chain of names below the global namespace, outermost first. -/
structure Proxy where
  /-- The names before the last. -/
  parents : List String
  /-- The last name. -/
  name : String
  deriving DecidableEq, Repr

namespace Proxy

/-- The path that names joined by dots say. -/
def pathOf (names : List String) : Path := .parse (Text.joined "." names)

/-- All names. -/
def names (p : Proxy) : List String := p.parents ++ [p.name]

/-- The path of a proxy. -/
def path (p : Proxy) : Path := pathOf p.names

/-- The value that stands for this path when it is passed to the server. -/
def toValue (p : Proxy) : Value := .remote p.path.text

/-- A proxy for a global. -/
def global (settings : ClientSettings) (name : String) : Except Error Proxy := do
  Path.checkSegment name settings.maxNameLength
  return ⟨[], name⟩

/-- The proxy for a member. -/
def index (p : Proxy) (settings : ClientSettings) (name : String) : Except Error Proxy := do
  Path.checkSegment name settings.maxNameLength
  return ⟨p.names, name⟩

/-- The proxy at the end of a chain of names that starts with a global. -/
def chain (settings : ClientSettings) (first : String) (rest : List String) :
    Except Error Proxy := do
  rest.foldlM (fun p name => p.index settings name) (← global settings first)

/-- Calls the function at this path, or reads the parent if the last name is `get`. -/
def call (p : Proxy) (args : List Value) : Calling (List Value) :=
  if p.name = "get" && !p.parents.isEmpty then do return [← Handle.getPath (pathOf p.parents)]
  else Handle.callPath p.path args

/-- Reads the value at this path. -/
def get (p : Proxy) : Calling Value := Handle.getPath p.path

/-- Stores a value under a key of the table at this path. -/
def set (p : Proxy) (key value : Value) : Calling Unit := Handle.setPath p.path key value

end Proxy

end RemoteCall
