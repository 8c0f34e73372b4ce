import RemoteCall.Error.Basic

/-!
# The incoming side of a line

Input arrives in chunks, between which a read may fail. A chunk is taken in as a whole and held
until it is used up, and only then is the next arrival looked at. Reading a fixed number of bytes
repeats this until there are enough; an interrupted read is repeated, any other failure ends the
attempt and loses the bytes held so far. An empty chunk, like the end of the arrivals, is the end of
the stream.
-/

namespace RemoteCall

/-- What one read of a line meets. -/
inductive Arrival where
  /-- Bytes that arrive together. -/
  | chunk (bytes : List UInt8)
  /-- A failing read. -/
  | fault (error : IoError)
  deriving DecidableEq, Repr

/-- The bytes of one arrival. -/
def Arrival.bytes : Arrival → List UInt8
  | .chunk bytes => bytes
  | .fault _ => []

/-- Everything that is still to be read, in order. -/
structure Inbound where
  /-- Bytes taken in and not yet used. -/
  held : List UInt8 := []
  /-- What is still on the line. -/
  coming : List Arrival := []
  deriving DecidableEq, Repr

namespace Inbound

/-- Input that arrives at once. -/
def ofBytes (bytes : List UInt8) : Inbound :=
  { coming := if bytes.isEmpty then [] else [.chunk bytes] }

/-- Nothing is left, not even a failure. -/
def isEmpty (input : Inbound) : Bool := input.held.isEmpty && input.coming.isEmpty

/-- More input at the end. -/
def extend (input : Inbound) (more : List Arrival) : Inbound :=
  { input with coming := input.coming ++ more }

/-- Exactly `n` bytes, of which some are held. -/
def gather (n : Nat) (held : List UInt8) (coming : List Arrival) :
    Except Error (List UInt8) × Inbound :=
  let taken := held.take n
  if taken.length = n then (.ok taken, ⟨held.drop n, coming⟩)
  else
    match coming with
    | [] => (.error .eof, ⟨[], []⟩)
    | .chunk [] :: rest => (.error .eof, ⟨[], rest⟩)
    | .chunk bytes :: rest => gather n (held ++ bytes) rest
    | .fault e :: rest =>
      if e.kind = .interrupted then gather n held rest else (.error (.ofIo e), ⟨[], rest⟩)

/-- Reads exactly `n` bytes. -/
def fill (n : Nat) (input : Inbound) : Except Error (List UInt8) × Inbound :=
  gather n input.held input.coming

/-- The first byte of what is coming, or `none` at the end of the stream. -/
def first : List Arrival → Except Error (Option UInt8) × Inbound
  | [] => (.ok none, ⟨[], []⟩)
  | .chunk [] :: rest => (.ok none, ⟨[], rest⟩)
  | .chunk (b :: bytes) :: rest => (.ok (some b), ⟨bytes, rest⟩)
  | .fault e :: rest =>
    if e.kind = .interrupted then first rest else (.error (.ofIo e), ⟨[], rest⟩)

/-- Reads one byte, or `none` at the end of the stream. -/
def next (input : Inbound) : Except Error (Option UInt8) × Inbound :=
  match input.held with
  | b :: held => (.ok (some b), { input with held := held })
  | [] => first input.coming

/-- The number of bytes still to be read. -/
def bytesLeft (input : Inbound) : Nat :=
  input.held.length + (input.coming.flatMap Arrival.bytes).length

/-- The number of bytes and arrivals still to be read. -/
def size (input : Inbound) : Nat := input.bytesLeft + input.coming.length

end Inbound

/-- A computation that reads from the incoming side and may fail. -/
abbrev Reader (α : Type) := ExceptT Error (StateM Inbound) α

namespace Reader

/-- Exactly `n` bytes. -/
def take (n : Nat) : Reader (List UInt8) := fun input => Inbound.fill n input

/-- One byte, where the end of the stream is an error. -/
def byte : Reader UInt8 := do return (← take 1).headD 0

/-- One byte, or `none` at the end of the stream. -/
def byte? : Reader (Option UInt8) := fun input => Inbound.next input

/-- The number of bytes and arrivals still to be read. -/
def remaining : Reader Nat := do return Inbound.size (← get)

end Reader

end RemoteCall
