import RemoteCall.Json.Basic
import RemoteCall.Value.Display

/-!
# Values as JSON

How values are written and read on a command line. Arrays are tables keyed `1, 2, …`, and such a
table, unless it is empty, is shown as an array again. The test for it counts in 32 bits, so a table
of more keys than these can count is taken for one with names; keys that are not text are shown by
their usual form. Bytes that are not text are shown as a list of numbers and references between
angle brackets; neither reads back.
-/

namespace RemoteCall.Value

/-- The integers that a number in integer representation is shown as: 64 bits with a sign. -/
def fitsSigned (i : Int) : Bool := -(Nat.pow 2 63) ≤ i && i < Nat.pow 2 63

mutual

/-- The value that a document stands for. -/
def ofJson : Json → Value
  | .null => .nil
  | .bool b => .boolean b
  | .integer i => if fitsSigned i then integer i else float (Binary64.ofInt i)
  | .float x => float x
  | .string s => ofText s
  | .array items => ofList (ofJsonItems items)
  | .object members => .table (ofJsonMembers members)

def ofJsonItems : List Json → List Value
  | [] => []
  | j :: rest => ofJson j :: ofJsonItems rest

def ofJsonMembers : List (String × Json) → List (Value × Value)
  | [] => []
  | (name, j) :: rest => (ofText name, ofJson j) :: ofJsonMembers rest

end

/-- The keys are `next, next + 1, …` in order. Behind the greatest integer the counter goes on with
the least. -/
def isCounted : Int32 → List (Value × Value) → Bool
  | _, [] => true
  | next, (k, _) :: rest => k.same (integer next.toInt) && isCounted (next + 1) rest

/-- A table that is shown as an array. -/
def isSequence (pairs : List (Value × Value)) : Bool := !pairs.isEmpty && isCounted 1 pairs

/-- The text of a key: the key itself if it is text, and its usual form otherwise. -/
def keyText (k : Value) : String := k.text?.getD k.display

/-- Bytes as a list of numbers. -/
def bytesJson (bytes : List UInt8) : Json := .array (bytes.map fun b => .integer b.toNat)

/-- A number; what is not finite is shown as null. -/
def numberJson (n : Number) : Json :=
  if n.kind = .integer ∧ n.value.isIntegral then .integer (n.value.clamp 64)
  else if n.value.isFinite then .float n.value
  else .null

mutual

/-- The document that shows a value. -/
def toJson : Value → Json
  | .nil => .null
  | .boolean b => .bool b
  | .number n => numberJson n
  | .string bytes =>
    match Text.decode? bytes with
    | some s => .string s
    | none => bytesJson bytes
  | .table pairs =>
    if isSequence pairs then .array (toJsonItems pairs) else Json.ofMembers (toJsonMembers pairs)
  | .blob bytes => bytesJson bytes
  | .remote path => .string ("<remote " ++ path ++ ">")

def toJsonItems : List (Value × Value) → List Json
  | [] => []
  | (_, v) :: rest => toJson v :: toJsonItems rest

def toJsonMembers : List (Value × Value) → List (String × Json)
  | [] => []
  | (k, v) :: rest => (keyText k, toJson v) :: toJsonMembers rest

end

/-- The value of an argument: a document if the text is one, and the text itself otherwise. -/
def ofArgument (text : String) : Value :=
  match Json.parse? text with
  | some j => ofJson j
  | none => ofText text

end RemoteCall.Value
