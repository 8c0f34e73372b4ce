import RemoteCall.Line.Basic

/-!
# Links

A link joins a client to a server by two pipes that lose nothing and keep the order. The server is
given as the function from all it has received to all it has sent in answer; as nothing that was
sent can be taken back, a longer input only adds to the answer. A step of the client runs on what
has arrived. When it had to wait for more, what it sent is handed on, and with the longer answer the
step runs once more from its beginning; a wait that no answer ends is a timeout.
-/

namespace RemoteCall

/-- A client's line and how much of the server's answer has been put on it. -/
structure Link where
  line : Line
  delivered : Nat := 0

namespace Link

/-- A fresh link. -/
def fresh : Link := { line := { inbound := {} } }

/-- The failure of a wait that nothing ends. -/
def silence : Arrival := .fault (.plain .timedOut)

/-- The line with the rest of an answer. -/
def deliver (l : Link) (answer : List UInt8) : Link :=
  let news := answer.drop l.delivered
  let arrivals : List Arrival := if news.isEmpty then [] else [.chunk news]
  { line := { l.line with inbound := l.line.inbound.extend arrivals }
    delivered := l.delivered + news.length }

/-- The line as a step finds it, with nothing but silence after what has arrived. -/
def facing (l : Link) : Line := { l.line with inbound := l.line.inbound.extend [silence] }

/-- The input without the silence that was not met. -/
def withoutSilence (input : Inbound) : Inbound :=
  if input.coming.getLast? = some silence then { input with coming := input.coming.dropLast }
  else input

/-- Runs a step of the client, with at most so many rounds of answers. -/
def perform {α : Type} (answer : List UInt8 → List UInt8) (step : Line → α × Line) :
    Nat → Link → α × Link
  | 0, l =>
    let (result, line) := step l.facing
    (result, { l with line := { line with inbound := withoutSilence line.inbound } })
  | rounds + 1, l =>
    let (result, line) := step l.facing
    let next := l.deliver (answer line.written)
    if next.delivered = l.delivered then
      (result, { l with line := { line with inbound := withoutSilence line.inbound } })
    else perform answer step rounds next

end Link

end RemoteCall
