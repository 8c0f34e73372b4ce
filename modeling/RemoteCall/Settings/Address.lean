import RemoteCall.Text.Cut
import RemoteCall.Text.Digits
import RemoteCall.Text.Quoted

/-!
# Addresses

Internet addresses in both versions. Reading is strict: decimal parts of version four have no
leading zeros, groups of version six have one to four hexadecimal digits, one double colon may stand
for a run of zero groups, and the last two groups may be written as a version-four address. Writing
shortens the first longest run of at least two zero groups and shows embedded version-four addresses
as such.
-/

namespace RemoteCall

/-- An internet address. -/
inductive Address where
  | v4 (a b c d : UInt8)
  /-- Eight groups of sixteen bits. -/
  | v6 (groups : List UInt16)
  deriving DecidableEq, Repr

namespace Address

/-- A decimal part of an address of version four. -/
def octet? (digits : List Char) : Option UInt8 :=
  if 3 < digits.length || (1 < digits.length && digits.head? = some '0') then none
  else
    match Text.number? 10 Text.decimalDigit? digits with
    | some n => if n < 256 then some (UInt8.ofNat n) else none
    | none => none

/-- The four parts of an address of version four. -/
def octets? (text : List Char) : Option (List UInt8) :=
  let parts := Text.cut '.' text
  if parts.length = 4 then parts.mapM octet? else none

/-- A group of an address of version six. -/
def group? (digits : List Char) : Option UInt16 :=
  if 4 < digits.length then none else (Text.number? 16 Text.hexDigit? digits).map UInt16.ofNat

/-- Two octets as one group. -/
def paired : List UInt8 → List UInt16
  | a :: b :: rest => (a.toUInt16 * 256 + b.toUInt16) :: paired rest
  | _ => []

/-- Groups between colons. Where the text may end in an address of version four, its last part may
be one. -/
def groups? : List (List Char) → Option (List UInt16)
  | [] => some []
  | [last] =>
    match group? last with
    | some g => some [g]
    | none => (octets? last).map paired
  | part :: rest => do return (← group? part) :: (← groups? rest)

/-- The groups in a text between colons; no text is no group. -/
def groupRun? (text : List Char) : Option (List UInt16) :=
  if text.isEmpty then some [] else groups? (Text.cut ':' text)

/-- The text before and after the first double colon. -/
def splitDouble : List Char → Option (List Char × List Char)
  | ':' :: ':' :: rest => some ([], rest)
  | c :: rest => (splitDouble rest).map fun (before, after) => (c :: before, after)
  | [] => none

/-- Groups only, without an address of version four at the end. -/
def plainRun? (text : List Char) : Option (List UInt16) :=
  if text.isEmpty then some [] else (Text.cut ':' text).mapM group?

/-- An address of version six. -/
def v6? (text : List Char) : Option Address :=
  match splitDouble text with
  | none => do
    let groups ← groupRun? text
    if groups.length = 8 then some (.v6 groups) else none
  | some (before, after) => do
    let head ← plainRun? before
    let tail ← groupRun? after
    if head.length + tail.length < 8 then
      some (.v6 (head ++ List.replicate (8 - head.length - tail.length) 0 ++ tail))
    else none

/-- Reads an address. -/
def parse? (text : String) : Option Address :=
  match octets? text.toList with
  | some [a, b, c, d] => some (.v4 a b c d)
  | _ => v6? text.toList

/-- An address of version four as text. -/
def dotted (octets : List UInt8) : String :=
  Text.joined "." (octets.map fun o => Text.decimal o.toNat)

/-- The two octets of a group. -/
def octetsOf (g : UInt16) : List UInt8 := [(g / 256).toUInt8, g.toUInt8]

/-- The length of the run of zero groups at the front. -/
def zeroRun (groups : List UInt16) : Nat := (groups.takeWhile (· = 0)).length

/-- Start and length of the first longest run of zero groups. -/
def longestRun (start : Nat) : List UInt16 → Nat × Nat
  | [] => (0, 0)
  | g :: rest =>
    let here := (start, zeroRun (g :: rest))
    let later := longestRun (start + 1) rest
    if later.2 ≤ here.2 then here else later

/-- Groups in hexadecimal between colons. -/
def colons (groups : List UInt16) : String :=
  Text.joined ":" (groups.map fun g => String.ofList (Nat.toDigits 16 g.toNat))

/-- Groups that hold an address of version four. -/
def isMapped (groups : List UInt16) : Bool := groups.take 6 = [0, 0, 0, 0, 0, 0xffff]

/-- An address as text. -/
def text : Address → String
  | .v4 a b c d => dotted [a, b, c, d]
  | .v6 groups =>
    if isMapped groups then
      "::ffff:" ++ dotted ((groups.drop 6).flatMap octetsOf)
    else
      let (start, length) := longestRun 0 groups
      if 1 < length then
        colons (groups.take start) ++ "::" ++ colons (groups.drop (start + length))
      else colons groups

end Address

end RemoteCall
