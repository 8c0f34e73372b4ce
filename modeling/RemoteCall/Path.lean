import RemoteCall.Error.Basic
import RemoteCall.Text.Cut

/-!
# Dotted paths

A path is a list of names, outermost first. Text is cut at its dots and empty names are dropped, so
`a..b` and `.a.b.` both name `a.b`; the empty path is the global namespace itself. Names that are
joined on one by one are kept as they are, dots and all, and are checked against a length limit in
bytes.
-/

namespace RemoteCall

/-- A sequence of names, outermost first. -/
structure Path where
  segments : List String
  deriving DecidableEq, Repr

namespace Path

/-- The empty path. -/
def root : Path := ⟨[]⟩

instance : Inhabited Path := ⟨root⟩

/-- The path that a dotted text names. -/
def parse (text : String) : Path :=
  ⟨((Text.cut '.' text.toList).filter (· ≠ [])).map String.ofList⟩

/-- The dotted text of a path. -/
def text (p : Path) : String := Text.joined "." p.segments

/-- Refuses a name of more than `limit` bytes. -/
def checkSegment (name : String) (limit : Nat) : Except Error Unit :=
  if limit < name.utf8ByteSize then .error (.longName name limit) else .ok ()

/-- The path with one more name. -/
def join (p : Path) (name : String) (limit : Nat) : Except Error Path := do
  checkSegment name limit
  return ⟨p.segments ++ [name]⟩

/-- The path of names joined on one by one. -/
def ofSegments (names : List String) (limit : Nat) : Except Error Path :=
  names.foldlM (fun p name => p.join name limit) root

def isRoot (p : Path) : Bool := p.segments.isEmpty

/-- The last name. -/
def leaf? (p : Path) : Option String := p.segments.getLast?

/-- The path without its last name. -/
def parent? (p : Path) : Option Path :=
  if p.segments.isEmpty then none else some ⟨p.segments.dropLast⟩

/-- Refuses a path with an overlong name, reporting the first. -/
def check (p : Path) (limit : Nat) : Except Error Unit :=
  p.segments.forM (checkSegment · limit)

end Path

end RemoteCall
