import RemoteCall.Text.Cut

/-!
# Arguments

Command lines in the usual form. Options have long names, given as `--name value` or `--name=value`,
and short ones, which may stand together and may have a value attached; everything else is a value
for the next position. Two dashes end the options. A position may take values that look like
options: there, a long name that is not an option and a group of short ones that are not all options
are values, and once the last such position has begun, so is everything that follows.
-/

namespace RemoteCall.CommandLine

/-- An option. -/
structure Switch where
  long : String
  short : Option Char := none
  /-- The option has a value. -/
  valued : Bool := true
  /-- The option may be given more than once. -/
  repeats : Bool := false
  /-- The values that the option takes. -/
  accepts : String → Bool := fun _ => true

/-- A position for values. -/
structure Slot where
  /-- The position takes every value that is left. -/
  many : Bool := false
  /-- The position takes values that look like options. -/
  dashes : Bool := false
  /-- The values that the position takes. -/
  accepts : String → Bool := fun _ => true

/-- What a command understands. -/
structure Shape where
  switches : List Switch
  slots : List Slot := []

/-- What a command line ends in instead of a command. -/
inductive Halt where
  /-- The command line is not understood. -/
  | misuse
  /-- The usage is asked for. -/
  | help
  /-- The version is asked for. -/
  | version
  deriving DecidableEq, Repr

/-- The arguments of one command. -/
structure Given where
  /-- Options by their long names, with their values, in order. -/
  options : List (String × Option String) := []
  /-- Values in order. -/
  values : List String := []

namespace Given

/-- The option was given. -/
def has (g : Given) (name : String) : Bool := g.options.any fun o => o.1 = name

/-- The value of an option. -/
def value? (g : Given) (name : String) : Option String :=
  (g.options.find? fun o => o.1 = name).bind (·.2)

end Given

/-- The state of reading arguments from left to right. -/
structure Reading where
  given : Given := {}
  /-- An option whose value comes next. -/
  awaiting : Option Switch := none
  /-- The number of positions that are filled. -/
  filled : Nat := 0
  /-- The last position has begun and takes everything. -/
  greedy : Bool := false
  /-- Options have ended. -/
  literal : Bool := false

namespace Reading

/-- Fails if an option still waits for its value. -/
def settled (r : Reading) : Except Halt Unit :=
  if r.awaiting.isSome then .error .misuse else .ok ()

/-- Notes an option. -/
def record (r : Reading) (s : Switch) (value : Option String) : Except Halt Reading := do
  if s.long = "help" then throw .help
  if s.long = "version" then throw .version
  if !s.repeats && r.given.has s.long then throw .misuse
  if !(value.map s.accepts).getD true then throw .misuse
  let given := { r.given with options := r.given.options ++ [(s.long, value)] }
  return { r with given := given, awaiting := none }

/-- Takes an option with the value attached to it, if there is one. -/
def take (r : Reading) (s : Switch) (attached : Option String) : Except Halt Reading := do
  r.settled
  if s.valued then
    match attached with
    | some value => r.record s (some value)
    | none => return { r with awaiting := some s }
  else
    match attached with
    | some _ => throw .misuse
    | none => r.record s none

/-- The value that follows a short option in the same argument. -/
def attachment : List Char → Option String
  | [] => none
  | '=' :: rest => some (String.ofList rest)
  | rest => some (String.ofList rest)

/-- Takes short options that stand together. -/
def cluster (shape : Shape) : List Char → Reading → Except Halt Reading
  | [], r => .ok r
  | c :: rest, r =>
    match shape.switches.find? fun s => s.short = some c with
    | none => .error .misuse
    | some s =>
      if s.valued then r.take s (attachment rest)
      else do
        let r ← r.take s none
        cluster shape rest r

/-- The position that the next value fills takes values that look like options. -/
def expectsDashes (shape : Shape) (r : Reading) : Bool :=
  (shape.slots[r.filled]?.map Slot.dashes).getD false

/-- Takes a value for the option that waits for one, or else for the next position. -/
def value (shape : Shape) (r : Reading) (argument : String) : Except Halt Reading := do
  match (if r.literal then none else r.awaiting) with
  | some s => r.record s (some argument)
  | none =>
    match shape.slots[r.filled]? with
    | none => throw .misuse
    | some slot =>
      r.settled
      if !slot.accepts argument then throw .misuse
      let given := { r.given with values := r.given.values ++ [argument] }
      if slot.many then return { r with given := given, greedy := slot.dashes }
      else return { r with given := given, filled := r.filled + 1 }

/-- The name of a long option and the value attached to it. -/
def splitLong (s : List Char) : String × Option String :=
  let name := s.takeWhile (· ≠ '=')
  match s.dropWhile (· ≠ '=') with
  | _ :: rest => (String.ofList name, some (String.ofList rest))
  | [] => (String.ofList name, none)

/-- Takes one argument. -/
def step (shape : Shape) (r : Reading) (argument : String) : Except Halt Reading :=
  if r.literal || r.greedy then r.value shape argument
  else
    match argument.toList with
    | ['-', '-'] => .ok { r with literal := true }
    | '-' :: '-' :: long =>
      let (name, attached) := splitLong long
      match shape.switches.find? fun s => s.long = name with
      | some s => r.take s attached
      | none => if r.expectsDashes shape then r.value shape argument else .error .misuse
    | '-' :: c :: rest =>
      let unknown (c : Char) : Bool := !shape.switches.any fun s => s.short = some c
      if r.expectsDashes shape && (c :: rest).any unknown then r.value shape argument
      else cluster shape (c :: rest) r
    | _ => r.value shape argument

end Reading

/-- Reads all arguments of a command; every position but one for many values has to be filled. -/
def Shape.read (shape : Shape) (arguments : List String) : Except Halt Given := do
  let r ← arguments.foldlM (Reading.step shape) {}
  r.settled
  if (shape.slots.filter fun slot => !slot.many).length ≤ r.filled then return r.given
  else throw .misuse

end RemoteCall.CommandLine
