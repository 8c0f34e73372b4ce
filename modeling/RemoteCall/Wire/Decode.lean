import RemoteCall.Line.Inbound
import RemoteCall.Wire.Encode

/-!
# Reading values

The reader follows the tags. An end mark is not a value: it closes a table in key position, and
anywhere else it is a violation that leaves the stream readable; an unknown tag is fatal, since
nothing tells where the next value begins. An item and the pairs behind it take at least one byte
between them, so twice the unread input bounds the recursion, and running out of that bound is the
end of the stream.
-/

namespace RemoteCall

/-- What follows a tag: a value, or an end mark. -/
inductive Item where
  | value (v : Value)
  | mark (tag : Tag)

namespace Reader

/-- A violation of the protocol. -/
def refuse {α : Type} (v : Violation) : Reader α := throw (.protocol v)

/-- A length or code. -/
def word (f : Format) : Reader UInt32 := do return f.wordOf (← take 4)

/-- A number without its tag. -/
def number (f : Format) : Reader Number := do
  return ⟨f.numberOf (← take f.width.toNat), f.kind⟩

/-- A byte string with its length, without its tag. -/
def string (f : Format) : Reader (List UInt8) := do
  let size := (← word f).toNat
  if maxString < size then refuse (.oversized size)
  take size

/-- The dotted text of a reference. -/
def reference (f : Format) : Reader String := do
  match Text.decode? (← string f) with
  | some path => return path
  | none => refuse .remoteNotText

/-- The payload of a blob up to its end mark. -/
def blob (f : Format) : Reader (List UInt8) := do
  let first ← byte
  if first ≠ Tag.string.toByte then refuse (.blobPayload first)
  let bytes ← string f
  let last ← byte
  if last ≠ Tag.blobEnd.toByte then refuse (.blobUnterminated last)
  return bytes

mutual

/-- A tag and what follows it, inside `depth` tables. -/
def item (f : Format) : Nat → Nat → Reader Item
  | 0, _ => throw .eof
  | budget + 1, depth => do
    let b ← byte
    match Tag.ofByte? b with
    | none => throw (.unknownTag b)
    | some .nil => return .value .nil
    | some .number => return .value (.number (← number f))
    | some .boolean => return .value (.boolean ((← byte) ≠ 0))
    | some .string => return .value (.string (← string f))
    | some .table =>
      if maxDepth ≤ depth then refuse .tooDeep
      return .value (.table (← pairs f budget (depth + 1)))
    | some .tableEnd => return .mark .tableEnd
    | some .blob => return .value (.blob (← blob f))
    | some .blobEnd => return .mark .blobEnd
    | some .remote => return .value (.remote (← reference f))

/-- The pairs of a table up to its end mark. -/
def pairs (f : Format) : Nat → Nat → Reader (List (Value × Value))
  | 0, _ => throw .eof
  | budget + 1, depth => do
    match ← item f budget depth with
    | .mark .tableEnd => return []
    | .mark tag => refuse (.strayEndInTable tag)
    | .value k =>
      match ← item f budget depth with
      | .mark _ => refuse .keyWithoutValue
      | .value v => return (k, v) :: (← pairs f budget depth)

end

/-- One value. -/
def value (f : Format) : Reader Value := do
  match ← item f (2 * (← remaining) + 1) 0 with
  | .value v => return v
  | .mark tag => refuse (.strayEnd tag)

end Reader

end RemoteCall
