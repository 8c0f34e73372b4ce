import RemoteCall.Host

/-!
# Namespaces

A namespace is a tree of plain values, functions and tables. Tables keep their pairs in order, a
repeated key counts by its last pair, and keys may be values of any type; only pairs keyed by text
can be reached by a path. Reading takes a snapshot in which a function becomes a reference to its
own path. Functions may have state, so a call gives back the function as well.
-/

namespace RemoteCall

/-- Function objects: a call answers or fails, and leaves the function in its next state. -/
class Callable (φ : Type) where
  call : φ → List Value → Except HostError (List Value) × φ

/-- A node of the tree. -/
inductive Entry (φ : Type) where
  /-- Data that is not a table. -/
  | value (v : Value)
  | function (f : φ)
  | table (pairs : List (Value × Entry φ))

namespace Entry

variable {φ : Type}

mutual

/-- Data as a node; tables become inner nodes. -/
def ofValue : Value → Entry φ
  | .table pairs => .table (ofPairs pairs)
  | v => .value v

/-- The pairs of a table as children. -/
def ofPairs : List (Value × Value) → List (Value × Entry φ)
  | [] => []
  | (k, v) :: rest => (k, ofValue v) :: ofPairs rest

end

def isFunction : Entry φ → Bool
  | .function _ => true
  | _ => false

/-- Storing this node removes what was there. -/
def isNil : Entry φ → Bool
  | .value .nil => true
  | _ => false

mutual

/-- The node as a value, seen at a path. -/
def snapshot (path : String) : Entry φ → Value
  | .value v => v
  | .function _ => .remote path
  | .table pairs => .table (snapshotPairs path pairs)

/-- The children as pairs. A child under a key that is no text has no path of its own; a function
there cannot be referred to and becomes nil. -/
def snapshotPairs (path : String) : List (Value × Entry φ) → List (Value × Value)
  | [] => []
  | (k, e) :: rest =>
    (k, match k.text? with
      | some name => snapshot (path ++ "." ++ name) e
      | none => if e.isFunction then .nil else snapshot path e) :: snapshotPairs path rest

end

/-- The children of a table; anything else has none. -/
def children : Entry φ → List (Value × Entry φ)
  | .table pairs => pairs
  | _ => []

/-- The child with this name. -/
def member? (name : String) (e : Entry φ) : Option (Entry φ) :=
  Pairs.findLast? (Value.isNamed name) e.children

/-- The node below this one at the end of a list of names. -/
def descend? : List String → Entry φ → Option (Entry φ)
  | [], e => some e
  | name :: rest, e => (e.member? name).bind (descend? rest)

/-- Stores a node under a key: the last pair with an equal key keeps its key and takes the node, and
a new key goes to the end. Nil removes that pair. -/
def setPair (pairs : List (Value × Entry φ)) (key : Value) (new : Entry φ) :
    List (Value × Entry φ) :=
  if new.isNil then (Pairs.eraseLast? key.same pairs).getD pairs
  else (Pairs.replaceLast? key.same new pairs).getD (pairs ++ [(key, new)])

/-- Puts a node at the end of a list of names below this one. Missing tables are made on the way,
and nodes on the way that are not tables give way to one. -/
def place (new : Entry φ) : List String → Entry φ → Entry φ
  | [], _ => new
  | [name], e => .table (setPair e.children (.ofText name) new)
  | name :: rest, e =>
    let child := (e.member? name).getD (.table [])
    let child := place new rest child
    .table ((Pairs.replaceLast? (Value.isNamed name) child e.children).getD
      (e.children ++ [(.ofText name, child)]))

/-- Exchanges the node at the end of a list of names that leads somewhere. -/
def exchange (new : Entry φ) : List String → Entry φ → Entry φ
  | [], _ => new
  | name :: rest, e =>
    match e.member? name with
    | some child =>
      .table ((Pairs.replaceLast? (Value.isNamed name) (exchange new rest child) e.children).getD
        e.children)
    | none => e

end Entry

/-- A tree of named values and functions. -/
structure Namespace (φ : Type) where
  /-- The top-level names, in increasing order. -/
  globals : List (String × Entry φ)

namespace Namespace

variable {φ : Type}

/-- The namespace without names. -/
def empty : Namespace φ := ⟨[]⟩

instance : Inhabited (Namespace φ) := ⟨empty⟩

/-- The top-level node with this name. -/
def global? (ns : Namespace φ) (name : String) : Option (Entry φ) :=
  (ns.globals.find? (·.1 = name)).map (·.2)

/-- Puts a node at the top level. -/
def setGlobal (ns : Namespace φ) (name : String) (e : Entry φ) : Namespace φ :=
  ⟨Pairs.insertSorted name e ns.globals⟩

/-- Removes a top-level name. -/
def eraseGlobal (ns : Namespace φ) (name : String) : Namespace φ :=
  ⟨ns.globals.filter (·.1 ≠ name)⟩

/-- The node at a path. Nothing lives at the empty path. -/
def lookup? (ns : Namespace φ) (p : Path) : Option (Entry φ) :=
  match p.segments with
  | [] => none
  | first :: rest => (ns.global? first).bind (Entry.descend? rest)

/-- Puts a node at a path, making tables on the way. Nothing changes at the empty path. -/
def place (ns : Namespace φ) (p : Path) (new : Entry φ) : Namespace φ :=
  match p.segments with
  | [] => ns
  | first :: rest =>
    ns.setGlobal first (Entry.place new rest ((ns.global? first).getD (.table [])))

/-- Exchanges the node at a path that leads somewhere. -/
def exchange (ns : Namespace φ) (p : Path) (new : Entry φ) : Namespace φ :=
  match p.segments with
  | [] => ns
  | first :: rest =>
    match ns.global? first with
    | some e => ns.setGlobal first (Entry.exchange new rest e)
    | none => ns

/-- Stores a value at a dotted path. -/
def insert (ns : Namespace φ) (path : String) (v : Value) : Namespace φ :=
  ns.place (.parse path) (.ofValue v)

/-- Stores a function at a dotted path. -/
def register (ns : Namespace φ) (path : String) (f : φ) : Namespace φ :=
  ns.place (.parse path) (.function f)

/-- The value at a path. -/
def resolve (ns : Namespace φ) (p : Path) : Except HostError Value :=
  match ns.lookup? p with
  | some e => .ok (e.snapshot p.text)
  | none => .error (.ofMissing p)

/-- The value at a dotted path, if something lives there. -/
def get? (ns : Namespace φ) (path : String) : Option Value :=
  (ns.resolve (.parse path)).toOption

/-- Stores a value under a key of the table at a path. -/
def assign (ns : Namespace φ) (p : Path) (key value : Value) :
    Except HostError Unit × Namespace φ :=
  let e : Entry φ := .ofValue value
  if p.isRoot then
    match key.text? with
    | none => (.error (.ofMessage "global names must be strings"), ns)
    | some name => (.ok (), if e.isNil then ns.eraseGlobal name else ns.setGlobal name e)
  else
    match ns.lookup? p with
    | some (.table pairs) => (.ok (), ns.exchange p (.table (Entry.setPair pairs key e)))
    | some _ => (.error (.ofMessage ("cannot index " ++ p.text ++ ": not a table")), ns)
    | none => (.error (.ofMissing p), ns)

/-- An argument as the function sees it: a reference stands for the value that lives here. -/
def dereference (ns : Namespace φ) : Value → Value
  | .remote path => (ns.get? path).getD .nil
  | v => v

/-- Calls the function at a path. -/
def invoke [Callable φ] (ns : Namespace φ) (p : Path) (args : List Value) :
    Except HostError (List Value) × Namespace φ :=
  match ns.lookup? p with
  | some (.function f) =>
    let (answer, f) := Callable.call f (args.map ns.dereference)
    (answer, ns.exchange p (.function f))
  | _ => (.error (.notCallable p.text), ns)

/-- A namespace as the application behind a server. -/
def host [Callable φ] : Host (Namespace φ) where
  resolve := resolve
  assign := assign
  invoke := invoke
  adopt := keepBlob

end Namespace

end RemoteCall
