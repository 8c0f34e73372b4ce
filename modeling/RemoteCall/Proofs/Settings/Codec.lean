import Mathlib.Data.List.Forall2
import RemoteCall.Settings.Codec

/-!
# What settings rely on when they are written and read

The part of a library that settings files depend on: scalars, options and cases without parts are
read back from their text, the fields of a record are found as they were written, and what is read
as an integer is in the range of its type. Nothing is asked about the text itself.
-/

namespace RemoteCall.Settings

mutual

/-- How deep the records of a document are nested. -/
def Document.depth : Document → Nat
  | .present d => d.depth
  | .record fields => fieldsDepth fields + 1
  | _ => 0

/-- How deep the records of the deepest field are nested. -/
def fieldsDepth : List (String × Document) → Nat
  | [] => 0
  | (_, d) :: rest => max d.depth (fieldsDepth rest)

end

/-- The document is no option itself. An option of an option may lose its outer value as text. -/
def Document.IsBare : Document → Prop
  | .absent => False
  | .present _ => False
  | _ => True

namespace Codec

variable {c : Codec} {α : Type}

/-- The text of the document is read as this tree. -/
def Spells (c : Codec) (d : Document) (t : c.Tree) : Prop := c.parse? (c.print d) = some t

/-- The text of the document is read back as this value. -/
def Keeps (c : Codec) (part : c.Tree → Option α) (d : Document) (a : α) : Prop :=
  ∃ t, c.Spells d t ∧ part t = some a

/-- The laws of a library for settings files. -/
structure Lawful (c : Codec) : Prop where
  /-- Truth values are read back. -/
  truth (b : Bool) : c.Keeps c.truth? (.truth b) b
  /-- Integers of at most eight bytes are read back as any type that has them. -/
  integer {low high i : Int} (hleast : -9223372036854775808 ≤ low)
    (hgreatest : high < 18446744073709551616) (hlow : low ≤ i) (hhigh : i ≤ high) :
    c.Keeps (c.integer? low high) (.integer i) i
  /-- Texts are read back. -/
  text (s : String) : c.Keeps c.text? (.text s) s
  /-- Cases with different names are told apart. -/
  variant {α : Type} {cases : List (String × α)} {name : String} {a : α}
    (hnodup : (cases.map Prod.fst).Nodup) (hcase : (name, a) ∈ cases) :
    c.Keeps (c.variant? cases) (.variant name) a
  /-- An option without a value is read back as such, whatever its part is. -/
  absent : ∃ t, c.Spells .absent t ∧
    ∀ {α : Type} (part : c.Tree → Option α), c.optional? part t = some none
  /-- An option with a value is read as the value is. -/
  present {d : Document} {t : c.Tree} (hd : d.IsBare) (ht : c.Spells d t) :
    ∃ u, c.Spells (.present d) u ∧
      ∀ {α : Type} (part : c.Tree → Option α), c.optional? part u = (part t).map some
  /-- The fields of a record are found under their names, and each is read as it would be alone.
  Records are nested up to a limit. -/
  record {fields : List (String × Document)} {ts : List c.Tree}
    (hdepth : (Document.record fields).depth ≤ 127) (hnodup : (fields.map Prod.fst).Nodup)
    (hfields : List.Forall₂ (fun field t => c.Spells field.2 t) fields ts) :
    ∃ t, c.Spells (.record fields) t ∧ c.fields? (fields.map Prod.fst) t = some (ts.map some)
  /-- A field that was found is read as its part, with or without a default. -/
  found {α : Type} (part : c.Tree → Option α) (default : Option α) (t : c.Tree) :
    c.field? part default (some t) = part t
  /-- A field that is missing keeps its default. -/
  missing {α : Type} (part : c.Tree → Option α) (a : α) : c.field? part (some a) none = some a
  /-- What is read as an integer is in the range of its type. -/
  range {low high i : Int} {t : c.Tree} (h : c.integer? low high t = some i) : low ≤ i ∧ i ≤ high
  /-- The value of an option that is read was read as its part. -/
  value {α : Type} {part : c.Tree → Option α} {t : c.Tree} {a : α}
    (h : c.optional? part t = some (some a)) : ∃ u, part u = some a

end Codec

end RemoteCall.Settings
