/-!
# Cutting text

A text is cut at every occurrence of a separator, or only at the last one; the pieces, empty ones
included, joined by the separator give the text back.
-/

namespace RemoteCall.Text

/-- The pieces between the separators, of which there is always at least one. -/
def cut (separator : Char) : List Char → List (List Char)
  | [] => [[]]
  | c :: rest =>
    if c = separator then [] :: cut separator rest
    else
      match cut separator rest with
      | [] => [[c]]
      | first :: others => (c :: first) :: others

/-- The text before the last separator and the text after it. -/
def cutLast (separator : Char) (s : List Char) : Option (List Char × List Char) :=
  match (cut separator s).reverse with
  | last :: first :: more => some ([separator].intercalate (first :: more).reverse, last)
  | _ => none

end RemoteCall.Text
