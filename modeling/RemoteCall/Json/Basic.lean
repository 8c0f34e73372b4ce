import RemoteCall.Json.Raw
import RemoteCall.Number.Binary64
import RemoteCall.Value.Pairs

/-!
# JSON documents

What a JSON text means: integers of 64 bits apart from all other numbers, and objects as lists of
named members. An object that was read from text has its members in increasing order of their names,
of equal names the last one; documents that are only written may have any order.

Reading a number takes as many leading digits as fit in 64 bits and scales them by a power of ten in
at most a few roundings, so the last place can differ from the nearest number. A number beyond the
finite ones, a lone surrogate and more than 127 levels of nesting are refused.
-/

namespace RemoteCall

/-- A JSON document. -/
inductive Json where
  | null
  | bool (b : Bool)
  | integer (i : Int)
  /-- A finite number that is not an integer of 64 bits. -/
  | float (x : Binary64)
  | string (s : String)
  | array (items : List Json)
  | object (members : List (String × Json))

namespace Json

instance : Inhabited Json := ⟨.null⟩

/-- The deepest nesting of arrays and objects. -/
def maxNesting : Nat := 127

/-! ## Numbers -/

/-- Ten to this power as a number. -/
def powerOfTen (k : Nat) : Binary64 := Binary64.ofInt (Nat.pow 10 k)

/-- The greatest power of ten that is a number. -/
def greatestPower : Nat := 308

/-- Division by ten to the power `k`, in strides of the greatest power. -/
def lower (x : Binary64) (k : Nat) : Binary64 :=
  if greatestPower < k then
    if x.isZero then x else lower (x.divFinite (powerOfTen greatestPower)) (k - greatestPower)
  else x.divFinite (powerOfTen k)
termination_by k
decreasing_by simp [greatestPower] at *; omega

/-- A number times ten to a power, if that is finite. -/
def scale? (n : Nat) (power : Int) : Option Binary64 :=
  let x := Binary64.ofInt n
  if power < 0 then some (lower x power.natAbs)
  else if x.isZero then some x
  else if greatestPower < power.natAbs then none
  else
    let product := x.mulFinite (powerOfTen power.natAbs)
    if product.isFinite then some product else none

/-- Takes digits as long as the number fits in 64 bits, and gives the number and the digits left. -/
def absorb : Nat → List Nat → Nat × List Nat
  | n, [] => (n, [])
  | n, d :: rest => if n * 10 + d < UInt64.size then absorb (n * 10 + d) rest else (n, d :: rest)

/-- The greatest power of ten that is worked out; beyond it only zero stays finite. -/
def greatestExponent : Nat := 2147483647

/-- The magnitude that digits and an exponent spell. -/
def Numeral.magnitude? (n : Numeral) : Option Binary64 :=
  let (leading, dropped) := absorb 0 n.whole
  let (all, ignored) := absorb leading n.fraction
  let power := n.exponent.getD 0
  if greatestExponent < power.natAbs then
    if 0 < power ∧ all ≠ 0 then none else some .zero
  else
    scale? all ((dropped.length : Int) - ((n.fraction.length - ignored.length : Nat) : Int) + power)

/-- The integer that is written, if it is one of 64 bits, with a sign or without. Negative zero is
none. -/
def Numeral.integer? (n : Numeral) : Option Int :=
  let magnitude := Text.ofDigits n.whole
  if !n.fraction.isEmpty || n.exponent.isSome then none
  else if n.negative then
    if 0 < magnitude ∧ magnitude ≤ Nat.pow 2 63 then some (-(magnitude : Int)) else none
  else if magnitude < UInt64.size then some magnitude
  else none

/-- The number that is written. -/
def Numeral.meaning? (n : Numeral) : Option Json :=
  match n.integer? with
  | some i => some (.integer i)
  | none => n.magnitude?.map fun x => .float (if n.negative then x.neg else x)

/-! ## Strings -/

def isLeading (unit : Nat) : Bool := 0xD800 ≤ unit && unit ≤ 0xDBFF

def isTrailing (unit : Nat) : Bool := 0xDC00 ≤ unit && unit ≤ 0xDFFF

/-- The characters of code points in which surrogates come in pairs. -/
def characters? : List Nat → Option (List Char)
  | [] => some []
  | unit :: rest =>
    if isTrailing unit then none
    else if isLeading unit then
      match rest with
      | [] => none
      | low :: rest =>
        if isTrailing low then
          (characters? rest).map
            (Char.ofNat (0x10000 + (unit - 0xD800) * 0x400 + (low - 0xDC00)) :: ·)
        else none
    else (characters? rest).map (Char.ofNat unit :: ·)

/-- The text of code points in which surrogates come in pairs. -/
def text? (units : List Nat) : Option String := (characters? units).map String.ofList

/-! ## Documents -/

/-- An object with these members, the last of each name, in increasing order. -/
def ofMembers (members : List (String × Json)) : Json :=
  .object (members.foldl (fun sorted (name, j) => Pairs.insertSorted name j sorted) [])

mutual

/-- The document below `depth` arrays and objects. -/
def ofRaw? (depth : Nat) : Raw → Option Json
  | .null => some .null
  | .bool b => some (.bool b)
  | .number n => n.meaning?
  | .string units => (text? units).map .string
  | .array items =>
    if maxNesting ≤ depth then none else (ofRawItems? (depth + 1) items).map .array
  | .object members =>
    if maxNesting ≤ depth then none else (ofRawMembers? (depth + 1) members).map ofMembers

def ofRawItems? (depth : Nat) : List Raw → Option (List Json)
  | [] => some []
  | item :: rest => do
    let first ← ofRaw? depth item
    let more ← ofRawItems? depth rest
    return first :: more

def ofRawMembers? (depth : Nat) : List (List Nat × Raw) → Option (List (String × Json))
  | [] => some []
  | (name, item) :: rest => do
    let name ← text? name
    let first ← ofRaw? depth item
    let more ← ofRawMembers? depth rest
    return (name, first) :: more

end

/-- The document that a text spells. -/
def parse? (text : String) : Option Json := (Raw.parse? text).bind (ofRaw? 0)

end Json

end RemoteCall
