/-!
# Writing and reading documents

Settings are written part by part and read part by part. What a document looks like as text, and
what a text is taken for, is the matter of a library: it is a parameter here, with one function for
each thing that the settings ask of it. What they rely on is `Settings.Codec.Lawful`.
-/

namespace RemoteCall

namespace Settings

/-- A document as it is handed to a writer, part by part. -/
inductive Document where
  /-- An option without a value. -/
  | absent
  /-- An option with a value. -/
  | present (d : Document)
  | truth (b : Bool)
  | integer (i : Int)
  | text (s : String)
  /-- A case without parts, by its name. -/
  | variant (name : String)
  /-- Named fields in order. -/
  | record (fields : List (String × Document))

/-- A library that writes documents as text and reads them back, together with what it derives from
the declaration of a record or of a choice of cases. -/
structure Codec where
  /-- The text of a document. -/
  print : Document → String
  /-- What a text is read as, and each of its parts. -/
  Tree : Type
  /-- Reads a whole text. -/
  parse? : String → Option Tree
  /-- Reads a truth value. -/
  truth? : Tree → Option Bool
  /-- Reads an integer of a type with this range. -/
  integer? (low high : Int) : Tree → Option Int
  /-- Reads a text. -/
  text? : Tree → Option String
  /-- Reads an option of what the part reads. -/
  optional? {α : Type} (part : Tree → Option α) : Tree → Option (Option α)
  /-- Reads one of these cases without parts. -/
  variant? {α : Type} (cases : List (String × α)) : Tree → Option α
  /-- Finds the fields of a record with these names; some may be missing. -/
  fields? (names : List String) : Tree → Option (List (Option Tree))
  /-- Reads a field that was found or not, with its default where it has one. -/
  field? {α : Type} (part : Tree → Option α) (default : Option α) : Option Tree → Option α

end Settings

end RemoteCall
