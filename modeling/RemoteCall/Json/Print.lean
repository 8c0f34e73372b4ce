import RemoteCall.Json.Basic
import RemoteCall.Number.Notation

/-!
# JSON documents as text

Two layouts of the same text: the compact one without blanks, and the indented one with a member or
an item per line and two spaces per level, where empty arrays and objects stay on one line. Only the
quote, the backslash and control characters are escaped.
-/

namespace RemoteCall.Json

/-- One character of a string. -/
def escape (c : Char) : List Char :=
  if c = '"' then ['\\', '"']
  else if c = '\\' then ['\\', '\\']
  else if c = '\x08' then ['\\', 'b']
  else if c = '\x0c' then ['\\', 'f']
  else if c = '\n' then ['\\', 'n']
  else if c = '\r' then ['\\', 'r']
  else if c = '\t' then ['\\', 't']
  else if c < ' ' then
    ['\\', 'u', '0', '0', Nat.digitChar (c.toNat / 16), Nat.digitChar (c.toNat % 16)]
  else [c]

/-- A string between quotes. -/
def quoted (s : String) : List Char := '"' :: s.toList.flatMap escape ++ ['"']

/-- A number that is not an integer of 64 bits; what is not finite has no JSON form. -/
def floatText (x : Binary64) : List Char :=
  if x.isFinite then (NumberStyle.scientific.finite x).toList else ['n', 'u', 'l', 'l']

/-- Documents without parts. -/
def scalar : Json → List Char
  | .bool b => (if b then "true" else "false").toList
  | .integer i => (Text.signedDecimal i).toList
  | .float x => floatText x
  | .string s => quoted s
  | _ => "null".toList

mutual

/-- The layout without blanks. -/
def compactChars : Json → List Char
  | .array items => '[' :: compactItems items ++ [']']
  | .object members => '\x7b' :: compactMembers members ++ ['\x7d']
  | j => scalar j

/-- Items between commas. -/
def compactItems : List Json → List Char
  | [] => []
  | [j] => compactChars j
  | j :: rest => compactChars j ++ ',' :: compactItems rest

/-- Members between commas. -/
def compactMembers : List (String × Json) → List Char
  | [] => []
  | [(name, j)] => quoted name ++ ':' :: compactChars j
  | (name, j) :: rest => quoted name ++ ':' :: compactChars j ++ ',' :: compactMembers rest

end

/-- A fresh line at this level. -/
def newline (level : Nat) : List Char := '\n' :: List.replicate (2 * level) ' '

mutual

/-- The indented layout at a level. -/
def prettyChars (level : Nat) : Json → List Char
  | .array [] => ['[', ']']
  | .array items => '[' :: prettyItems (level + 1) items ++ newline level ++ [']']
  | .object [] => ['\x7b', '\x7d']
  | .object members => '\x7b' :: prettyMembers (level + 1) members ++ newline level ++ ['\x7d']
  | j => scalar j

/-- Items on lines of their own. -/
def prettyItems (level : Nat) : List Json → List Char
  | [] => []
  | [j] => newline level ++ prettyChars level j
  | j :: rest => newline level ++ prettyChars level j ++ ',' :: prettyItems level rest

/-- Members on lines of their own. -/
def prettyMembers (level : Nat) : List (String × Json) → List Char
  | [] => []
  | [(name, j)] => newline level ++ quoted name ++ ':' :: ' ' :: prettyChars level j
  | (name, j) :: rest =>
    newline level ++ quoted name ++ ':' :: ' ' :: prettyChars level j ++
      ',' :: prettyMembers level rest

end

/-- The text without blanks. -/
def compact (j : Json) : String := String.ofList (compactChars j)

/-- The indented text. -/
def pretty (j : Json) : String := String.ofList (prettyChars 0 j)

end RemoteCall.Json
