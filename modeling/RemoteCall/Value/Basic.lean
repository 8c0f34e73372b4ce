import RemoteCall.Number.Binary64
import RemoteCall.Text.Utf8
import RemoteCall.Value.Pairs

/-!
# Values

What two peers exchange: nil, booleans, numbers, byte strings, tables, opaque blobs and references
to what lives on the other side. A number carries the representation it travelled in, but two
numbers are equal when their values are. Tables keep the order of their pairs and any repeated
keys.
-/

namespace RemoteCall

/-- The representation a number travels in. -/
inductive NumberKind where
  | float
  | integer
  deriving DecidableEq, Repr

/-- A number with its representation. -/
structure Number where
  value : Binary64
  kind : NumberKind
  deriving DecidableEq, Repr

/-- A value exchanged between peers. -/
inductive Value where
  /-- No value. -/
  | nil
  | boolean (b : Bool)
  | number (n : Number)
  /-- A byte string, not necessarily text. -/
  | string (bytes : List UInt8)
  /-- Keys and values in order. -/
  | table (pairs : List (Value × Value))
  /-- Bytes that only the hosts understand, such as a serialised function. -/
  | blob (bytes : List UInt8)
  /-- The dotted path of a value that lives on the receiving side. -/
  | remote (path : String)

instance : Inhabited Value := ⟨.nil⟩

namespace Value

/-- A number in float representation. -/
def float (x : Binary64) : Value := .number ⟨x, .float⟩

/-- The number nearest to an integer, in integer representation. -/
def integer (i : Int) : Value := .number ⟨Binary64.ofInt i, .integer⟩

/-- A text as its UTF-8 bytes. -/
def ofText (s : String) : Value := .string (Text.bytes s)

/-- Pairs each item with its index from `next` on. -/
def enumerate : Int → List Value → List (Value × Value)
  | _, [] => []
  | next, item :: rest => (integer next, item) :: enumerate (next + 1) rest

/-- A table keyed by `1, 2, …`. -/
def ofList (items : List Value) : Value := .table (enumerate 1 items)

/-- The name of a value's type. -/
def typeName : Value → String
  | .nil => "nil"
  | .boolean _ => "boolean"
  | .number _ => "number"
  | .string _ => "string"
  | .table _ => "table"
  | .blob _ => "blob"
  | .remote _ => "remote"

def isNil : Value → Bool
  | .nil => true
  | _ => false

def number? : Value → Option Binary64
  | .number n => some n.value
  | _ => none

def boolean? : Value → Option Bool
  | .boolean b => some b
  | _ => none

/-- The text of a byte string that is valid UTF-8. -/
def text? : Value → Option String
  | .string bs => Text.decode? bs
  | _ => none

/-- The value is the byte string of this name. -/
def isNamed (name : String) : Value → Bool
  | .string bs => bs == Text.bytes name
  | _ => false

/-- Looks up a name in a table. -/
def get? (v : Value) (name : String) : Option Value :=
  match v with
  | .table pairs => Pairs.findLast? (isNamed name) pairs
  | _ => none

/-- The table with a new value under a name it already has. -/
def replace? (v : Value) (name : String) (new : Value) : Option Value :=
  match v with
  | .table pairs => (Pairs.replaceLast? (isNamed name) new pairs).map .table
  | _ => none

mutual

/-- Equality: numbers by value, so a not-a-number equals nothing, and all else by structure. -/
def same : Value → Value → Bool
  | .nil, .nil => true
  | .boolean a, .boolean b => a == b
  | .number a, .number b => a.value.same b.value
  | .string a, .string b => a == b
  | .table a, .table b => samePairs a b
  | .blob a, .blob b => a == b
  | .remote a, .remote b => a == b
  | _, _ => false

/-- Equality of the pairs of two tables, in order. -/
def samePairs : List (Value × Value) → List (Value × Value) → Bool
  | [], [] => true
  | (k, v) :: rest, (k', v') :: rest' => same k k' && same v v' && samePairs rest rest'
  | _, _ => false

end

end Value

end RemoteCall
