/-!
# Single-byte codes

The leading byte of a request, the byte a server answers it with, and the tag in front of every
value. Each code list is read back by its own inverse, and bytes outside it read as nothing.
-/

namespace RemoteCall

/-- The leading byte of a request. -/
inductive Command where
  /-- Invoke a function. -/
  | call
  /-- Read a value. -/
  | get
  /-- Agree on a format, once more if need be. -/
  | connect
  /-- Assign a value. -/
  | set
  deriving DecidableEq, Repr

namespace Command

def toByte : Command → UInt8
  | .call => 1
  | .get => 2
  | .connect => 3
  | .set => 4

def ofByte? (b : UInt8) : Option Command :=
  if b = 1 then some .call
  else if b = 2 then some .get
  else if b = 3 then some .connect
  else if b = 4 then some .set
  else none

/-- The word used in messages. -/
def name : Command → String
  | .call => "Call"
  | .get => "Get"
  | .connect => "Connect"
  | .set => "Set"

@[simp] theorem ofByte?_toByte (c : Command) : ofByte? c.toByte = some c := by cases c <;> rfl

end Command

/-- What a server says before it reads the body of a request. -/
inductive Status where
  /-- The command is accepted and its body awaited. -/
  | ready
  /-- The command is not understood. -/
  | unsupported
  /-- Reserved; nothing sends it. -/
  | done
  deriving DecidableEq, Repr

namespace Status

def toByte : Status → UInt8
  | .ready => 64
  | .unsupported => 65
  | .done => 66

def ofByte? (b : UInt8) : Option Status :=
  if b = 64 then some .ready
  else if b = 65 then some .unsupported
  else if b = 66 then some .done
  else none

def name : Status → String
  | .ready => "Ready"
  | .unsupported => "UnsupportedCommand"
  | .done => "Done"

@[simp] theorem ofByte?_toByte (s : Status) : ofByte? s.toByte = some s := by cases s <;> rfl

end Status

/-- The tag in front of a value, or the end mark of a table or a blob. -/
inductive Tag where
  | nil
  | number
  | boolean
  | string
  | table
  | tableEnd
  | blob
  | blobEnd
  | remote
  deriving DecidableEq, Repr

namespace Tag

def toByte : Tag → UInt8
  | .nil => 0
  | .number => 1
  | .boolean => 2
  | .string => 3
  | .table => 4
  | .tableEnd => 5
  | .blob => 6
  | .blobEnd => 7
  | .remote => 8

def ofByte? (b : UInt8) : Option Tag :=
  if b = 0 then some .nil
  else if b = 1 then some .number
  else if b = 2 then some .boolean
  else if b = 3 then some .string
  else if b = 4 then some .table
  else if b = 5 then some .tableEnd
  else if b = 6 then some .blob
  else if b = 7 then some .blobEnd
  else if b = 8 then some .remote
  else none

/-- The word used in messages. -/
def name : Tag → String
  | .nil => "Nil"
  | .number => "Number"
  | .boolean => "Boolean"
  | .string => "String"
  | .table => "Table"
  | .tableEnd => "TableEnd"
  | .blob => "Blob"
  | .blobEnd => "BlobEnd"
  | .remote => "Remote"

@[simp] theorem ofByte?_toByte (t : Tag) : ofByte? t.toByte = some t := by cases t <;> rfl

end Tag

end RemoteCall
