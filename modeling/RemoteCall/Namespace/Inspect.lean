import RemoteCall.Namespace.Basic

/-!
# Namespaces as text

The listing of a namespace for a developer: names and keys between quotes, plain values in their
usual form, functions without detail.
-/

namespace RemoteCall

namespace Entry

variable {φ : Type}

mutual

/-- The text of a node. -/
def inspect : Entry φ → String
  | .value v => v.display
  | .function _ => "<function>"
  | .table pairs => "\x7b" ++ Text.joined ", " (inspectPairs pairs) ++ "\x7d"

/-- The texts of the children. -/
def inspectPairs : List (Value × Entry φ) → List String
  | [] => []
  | (k, e) :: rest => (Text.quoted k.display ++ ": " ++ inspect e) :: inspectPairs rest

end

end Entry

/-- The text of a namespace. -/
def Namespace.inspect {φ : Type} (ns : Namespace φ) : String :=
  let globals := ns.globals.map fun (name, e) => Text.quoted name ++ ": " ++ e.inspect
  "Namespace \x7b globals: \x7b" ++ Text.joined ", " globals ++ "\x7d \x7d"

end RemoteCall
