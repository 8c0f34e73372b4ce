import RemoteCall.Json.Print
import RemoteCall.Settings.Codec

/-!
# Documents as JSON

The codec that the program is run with: indented JSON, with cases as strings and options as null or
their value. A record is read from an object or an array of the fields in order; unknown names are
passed over, and a field given twice is refused. Only what is a field has to make sense; what is
passed over has to be well formed.
-/

namespace RemoteCall

namespace Settings

mutual

/-- A document as JSON. -/
def Document.toJson : Document → Json
  | .absent => .null
  | .present d => d.toJson
  | .truth b => .bool b
  | .integer i => .integer i
  | .text s => .string s
  | .variant name => .string name
  | .record fields => .object (membersOf fields)

/-- Fields as members of an object. -/
def membersOf : List (String × Document) → List (String × Json)
  | [] => []
  | (name, d) :: rest => (name, d.toJson) :: membersOf rest

end

namespace Raw

/-- An integer without point and exponent in a range. -/
def integer? (low high : Int) : Json.Raw → Option Int
  | .number n =>
    match n.integer? with
    | some i => if low ≤ i ∧ i ≤ high then some i else none
    | none => none
  | _ => none

def truth? : Json.Raw → Option Bool
  | .bool b => some b
  | _ => none

def text? : Json.Raw → Option String
  | .string units => Json.text? units
  | _ => none

/-- A part that may be null. -/
def optional? {α : Type} (part : Json.Raw → Option α) : Json.Raw → Option (Option α)
  | .null => some none
  | j => (part j).map some

/-- A case, by its name alone or as an object whose only member is null. -/
def variant? {α : Type} (cases : List (String × α)) : Json.Raw → Option α
  | .object [(name, .null)] => (Json.text? name).bind fun name => cases.lookup name
  | j => (text? j).bind fun name => cases.lookup name

/-- Distributes the members of an object, or the items of an array, over fields in order. Every
field is found at most once, and an array has no item too many. -/
def fields? (names : List String) : Json.Raw → Option (List (Option Json.Raw))
  | .array items =>
    if names.length < items.length then none
    else some (items.map some ++ List.replicate (names.length - items.length) none)
  | .object members => do
    let named ← members.mapM fun (units, j) => (Json.text? units).map fun name => (name, j)
    names.mapM fun name =>
      match named.filter (·.1 = name) with
      | [] => some none
      | [(_, j)] => some (some j)
      | _ => none
  | _ => none

/-- A field that was found or has a default. -/
def field? {α : Type} (part : Json.Raw → Option α) (default : Option α) :
    Option Json.Raw → Option α
  | some j => part j
  | none => default

end Raw

/-- Documents as indented JSON. -/
def Codec.json : Codec where
  print d := d.toJson.pretty
  Tree := Json.Raw
  parse? := Json.Raw.parse?
  truth? := Raw.truth?
  integer? := Raw.integer?
  text? := Raw.text?
  optional? := Raw.optional?
  variant? := Raw.variant?
  fields? := Raw.fields?
  field? := Raw.field?

end Settings

end RemoteCall
