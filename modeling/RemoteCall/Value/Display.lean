import RemoteCall.Number.Notation
import RemoteCall.Value.Basic

/-!
# Values as text

The form in which values appear in messages and listings. Strings are quoted, with U+FFFD for bytes
that are not text; blobs show their size only.
-/

namespace RemoteCall.Value

mutual

/-- The text of a value. -/
def display : Value → String
  | .nil => "nil"
  | .boolean b => if b then "true" else "false"
  | .number n => n.value.text
  | .string bs => Text.quoted (Text.decodeLossy bs)
  | .table pairs => "\x7b" ++ Text.joined ", " (displayPairs pairs) ++ "\x7d"
  | .blob bs => "<blob " ++ Text.decimal bs.length ++ " bytes>"
  | .remote path => "<remote " ++ path ++ ">"

/-- The texts of a table's pairs. -/
def displayPairs : List (Value × Value) → List String
  | [] => []
  | (k, v) :: rest => ("[" ++ display k ++ "] = " ++ display v) :: displayPairs rest

end

end RemoteCall.Value
