import RemoteCall.Duration
import RemoteCall.Line.Inbound
import RemoteCall.Wire.Encode

/-!
# Lines

A line joins this side to one peer: what is still to be read, what has been sent, whether the line
is open, and the time limits it was given. Everything sent is kept in order together with the points
at which it was pushed out, so that a run can be judged by what the peer gets to see. A line may
refuse output: its intake says what becomes of each piece, depending on all that went before. An
attempt at a piece that is interrupted is repeated with the rest, as often as that happens.
-/

namespace RemoteCall

/-- What goes out on a line. -/
inductive Sent where
  | data (bytes : List UInt8)
  /-- Everything before is pushed to the peer. -/
  | flush
  /-- Here the line refused a piece of output, or the rest of one. -/
  | refused (error : IoError)
  deriving DecidableEq, Repr

/-- The bytes of one step of output. -/
def Sent.payload : Sent → List UInt8
  | .data bytes => bytes
  | .flush | .refused _ => []

/-- The failures that a piece of output meets one after another after all that went before, each
with the number of bytes that go out ahead of it; behind the last one all the rest goes out. A push
is a piece without bytes. There are as many interruptions as there are, but they end: a line that
interrupted one piece forever would keep its writer forever, as an operation of a host does that
never returns. -/
abbrev Intake := List Sent → List UInt8 → List (Nat × IoError)

namespace Intake

/-- Everything goes out. -/
def free : Intake := fun _ _ => []

/-- The failure of writing to a peer that is gone. -/
def brokenPipe : IoError := .system 32

/-- So many bytes go out, and every further byte finds the peer gone. -/
def limited (room : Nat) : Intake := fun sent bytes =>
  let left := room - (sent.flatMap Sent.payload).length
  if bytes.length ≤ left then [] else [(left, brokenPipe)]

end Intake

/-- A byte stream to one peer. -/
structure Line where
  inbound : Inbound
  /-- Output so far, in order. -/
  outbound : List Sent := []
  intake : Intake := .free
  isOpen : Bool := true
  /-- The time limits set so far, in order. -/
  timeouts : List (Option Duration) := []

namespace Line

/-- A fresh line with this input. -/
def ofBytes (bytes : List UInt8) : Line :=
  { inbound := .ofBytes bytes }

/-- All bytes sent so far. -/
def written (l : Line) : List UInt8 := l.outbound.flatMap Sent.payload

/-- Input was taken in and not yet used, which no wait on the line can see. -/
def hasHeld (l : Line) : Bool := !l.inbound.held.isEmpty

/-- Something is left to be read. -/
def hasInput (l : Line) : Bool := !l.inbound.isEmpty

/-- Records bytes that went out; no bytes leave no record. -/
def record (l : Line) (bytes : List UInt8) : Line :=
  if bytes.isEmpty then l else { l with outbound := l.outbound ++ [.data bytes] }

/-- Records a refusal. -/
def refuse (l : Line) (e : IoError) : Line := { l with outbound := l.outbound ++ [.refused e] }

/-- Sends bytes that meet these failures. An interrupted attempt is repeated with the bytes that are
left, and any other failure is final; when all bytes are out, nothing more is attempted. -/
def deliver (l : Line) (bytes : List UInt8) : List (Nat × IoError) → Except Error Unit × Line
  | [] => (.ok (), l.record bytes)
  | (taken, e) :: later =>
    if bytes.length ≤ taken then (.ok (), l.record bytes)
    else if e.kind = .interrupted then
      (l.record (bytes.take taken)).deliver (bytes.drop taken) later
    else (.error (.ofIo e), (l.record (bytes.take taken)).refuse e)

/-- Sends bytes as far as the line takes them. Sending nothing asks nothing of the line. -/
def write (l : Line) (bytes : List UInt8) : Except Error Unit × Line :=
  if bytes.isEmpty then (.ok (), l) else l.deliver bytes (l.intake l.outbound bytes)

/-- Pushes what was sent to the peer. A push is not repeated, whatever it fails with. -/
def flush (l : Line) : Except Error Unit × Line :=
  match l.intake l.outbound [] with
  | [] => (.ok (), { l with outbound := l.outbound ++ [.flush] })
  | (_, e) :: _ => (.error (.ofIo e), l.refuse e)

/-- Bounds every later read and write. -/
def setTimeout (l : Line) (timeout : Option Duration) : Line :=
  { l with timeouts := l.timeouts ++ [timeout] }

/-- Releases the line. -/
def close (l : Line) : Line := { l with isOpen := false }

end Line

end RemoteCall
