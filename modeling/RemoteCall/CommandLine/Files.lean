import RemoteCall.Error.System
import RemoteCall.Text.Cut

/-!
# Files in memory

Folders, files and devices by their paths, and what reading, writing and opening as a terminal do at
a path, up to the error number. A path is followed name by name; every name but the last has to be a
folder, and one that ends in a slash asks for a folder.
-/

namespace RemoteCall.CommandLine

/-- A device that is no terminal. It has nothing to read. -/
structure Device where
  /-- The error number of opening it, if it does not open. -/
  opening : Option Int := none
  /-- The error number of writing to it, if it takes nothing. -/
  writing : Option Int := none
  /-- The error number of using it as a terminal. -/
  claiming : Int := 25

/-- What a path stands for. -/
inductive Node where
  | folder
  | file (bytes : List UInt8)
  | device (d : Device)

/-- Everything that has a path. -/
structure Files where
  /-- What there is, each by its names from the root on. -/
  nodes : List (List String × Node)
  /-- The folder that paths start from which do not start at the root. -/
  home : List String

namespace Files

/-- What has these names. -/
def find? (f : Files) (names : List String) : Option Node :=
  (f.nodes.find? fun node => node.1 = names).map (·.2)

/-- What a path leads to. -/
inductive Found where
  | node (names : List String) (n : Node)
  /-- A folder leads there, but nothing is there. -/
  | vacant (names : List String)

/-- The longest name and the longest path in bytes. -/
def longestName : Nat := 255

def longestPath : Nat := 4095

/-- The failure with an error number. -/
def failure {α : Type} (number : Int) : Except IoError α := .error (.system number)

/-- Follows names from a place. -/
def follow (f : Files) : List String → List String → Except IoError Found
  | here, [] => .ok ((f.find? here).elim (.vacant here) (.node here))
  | here, name :: rest =>
    match f.find? here with
    | none => failure 2
    | some .folder =>
      if name = "." then f.follow here rest
      else if name = ".." then f.follow here.dropLast rest
      else if longestName < name.utf8ByteSize then failure 36
      else f.follow (here ++ [name]) rest
    | some _ => failure 20

/-- A path as a place to start from, names and whether it ends in a slash. -/
def route (f : Files) (path : String) : List String × List String × Bool :=
  let pieces := (Text.cut '/' path.toList).map String.ofList
  let start := if pieces.head? = some "" then [] else f.home
  (start, pieces.filter (· ≠ ""), pieces.getLast? = some "")

/-- What a path leads to. A slash at its end leads into a folder. -/
def locate (f : Files) (path : String) : Except IoError Found :=
  let (start, names, slash) := f.route path
  if longestPath < path.utf8ByteSize then failure 36
  else f.follow start (if slash then names ++ ["."] else names)

/-- What there is at a path. -/
def open? (f : Files) (path : String) : Except IoError Node := do
  match ← f.locate path with
  | .node _ n => return n
  | .vacant _ => failure 2

/-- The bytes of a file. -/
def read (f : Files) (path : String) : Except IoError (List UInt8) := do
  match ← f.open? path with
  | .file bytes => return bytes
  | .folder => failure 21
  | .device d => d.opening.elim (.ok []) failure

/-- The path where a file can be made or written anew. A path that ends in a slash is none. -/
def target (f : Files) (path : String) : Except IoError Found := do
  let (start, names, slash) := f.route path
  if slash && !names.isEmpty && path.utf8ByteSize ≤ longestPath then
    discard (f.follow start (names.dropLast ++ ["."]))
    failure 21
  else f.locate path

/-- The same with other bytes at a path. -/
def put (f : Files) (names : List String) (bytes : List UInt8) : Files :=
  { f with nodes := (names, .file bytes) :: f.nodes.filter fun node => node.1 ≠ names }

/-- Makes a file or replaces its bytes. -/
def write (f : Files) (path : String) (bytes : List UInt8) : Except IoError Unit × Files :=
  match f.target path with
  | .error e => (.error e, f)
  | .ok (.vacant names) => (.ok (), f.put names bytes)
  | .ok (.node names (.file _)) => (.ok (), f.put names bytes)
  | .ok (.node _ .folder) => (failure 21, f)
  | .ok (.node _ (.device d)) => ((d.opening.or d.writing).elim (.ok ()) failure, f)

/-- Why what is at a path is no terminal. -/
def claim (f : Files) (path : String) : IoError :=
  match f.open? path with
  | .error e => e
  | .ok .folder => .system 21
  | .ok (.file _) => .system 25
  | .ok (.device d) => .system (d.opening.getD d.claiming)

/-! ## A machine -/

/-- The devices of a machine. -/
def devices : List (String × Device) :=
  [("null", {}), ("zero", {}), ("full", { writing := some 28 }),
    ("random", { claiming := 22 }), ("urandom", { claiming := 22 }), ("tty", { opening := some 6 })]

/-- The folders at the root of a machine. -/
def folders : List String :=
  ["bin", "boot", "dev", "etc", "home", "lib", "media", "mnt", "opt", "proc", "root", "run", "sbin",
    "srv", "sys", "tmp", "usr", "var"]

/-- The usual folders and devices, and these files where paths start from. -/
def machine (files : List (String × List UInt8)) : Files where
  home := ["tmp", "work"]
  nodes :=
    files.map (fun (name, bytes) => (["tmp", "work", name], .file bytes)) ++
    [([], .folder), (["tmp", "work"], .folder), (["dev", "pts"], .folder),
      (["dev", "shm"], .folder)] ++
    folders.map (fun name => ([name], .folder)) ++
    devices.map fun (name, d) => (["dev", name], .device d)

end Files

end RemoteCall.CommandLine
