import RemoteCall.Namespace.Basic

/-!
# Stock functions

A closed set of functions to fill a namespace with. Only the counter has state. Two kinds of sum
differ in what they do with other arguments and in the sum of nothing: the tolerant one skips them
and starts from zero, the strict one refuses them and starts from negative zero, which is neutral
for every number.
-/

namespace RemoteCall

/-- Ready-made functions. -/
inductive Stock where
  /-- Gives back its arguments. -/
  | echo
  /-- The sum of the numbers among its arguments. -/
  | sum
  /-- How often it has been called. -/
  | count (calls : Nat)
  /-- Gives back nothing. -/
  | silent
  /-- The type of each argument. -/
  | types
  /-- The text of each argument. -/
  | display
  /-- Fails. -/
  | fail (e : HostError)
  /-- Always gives the same values. -/
  | const (values : List Value)
  /-- The sum of its arguments, which have to be numbers. -/
  | add
  /-- Strings as they are and the texts of other values, one after another. -/
  | concat
  /-- The largest of its arguments, which have to be numbers. -/
  | maximum
  /-- The smallest of its arguments, which have to be numbers. -/
  | minimum

namespace Stock

/-- All arguments as numbers. -/
def numbers (args : List Value) : Except HostError (List Binary64) :=
  args.mapM fun a =>
    match a.number? with
    | some x => .ok x
    | none => .error (.ofMessage ("expected number, got " ++ a.typeName))

/-- The argument that a choice between two leaves over. -/
def extreme (pick : Binary64 → Binary64 → Binary64) (args : List Value) :
    Except HostError (List Value) := do
  let xs ← numbers args
  match xs with
  | [] => .error (.ofMessage "at least one number expected")
  | first :: _ => .ok [.float (xs.foldl pick first)]

/-- The bytes that an argument adds to a concatenation. -/
def contribution : Value → List UInt8
  | .string bytes => bytes
  | v => Text.bytes v.display

/-- One call. -/
def call (f : Stock) (args : List Value) : Except HostError (List Value) × Stock :=
  match f with
  | .echo => (.ok args, f)
  | .sum => (.ok [.float (Binary64.sum .zero (args.filterMap Value.number?))], f)
  | .count calls => (.ok [.integer (calls + 1)], .count (calls + 1))
  | .silent => (.ok [], f)
  | .types => (.ok (args.map fun a => .ofText a.typeName), f)
  | .display => (.ok (args.map fun a => .ofText a.display), f)
  | .fail e => (.error e, f)
  | .const values => (.ok values, f)
  | .add => ((numbers args).map fun xs => [.float (Binary64.sum .negativeZero xs)], f)
  | .concat => (.ok [.string (args.flatMap contribution)], f)
  | .maximum => (extreme Binary64.max args, f)
  | .minimum => (extreme Binary64.min args, f)

instance : Callable Stock := ⟨call⟩

end Stock

/-- A namespace as a host with the failures that a plain one cannot show: names ending in `boom` or
`uncallable` cannot be read, and blobs arrive as strings. -/
def Namespace.faultyHost {φ : Type} [Callable φ] : Host (Namespace φ) :=
  { Namespace.host with
    resolve := fun ns p =>
      if p.leaf? = some "boom" then .error (.ofMessage "boom")
      else if p.leaf? = some "uncallable" then .error (.notCallable p.text)
      else ns.resolve p
    adopt := fun ns bytes => (.string bytes, ns) }

/-- The demo namespace: some functions, a constant and two settings. -/
def demo : Namespace Stock :=
  Namespace.empty
    |>.register "add" .add
    |>.register "echo" .echo
    |>.register "concat" .concat
    |>.register "counter" (.count 0)
    |>.register "math.max" .maximum
    |>.register "math.min" .minimum
    |>.insert "math.pi" (.float ⟨0x400921fb54442d18⟩)
    |>.insert "config.name" (.ofText "lrpc demo")
    |>.insert "config.version" (.ofText "0.3.0")

end RemoteCall
