import RemoteCall.Client.Handle

/-!
# Connections and handles as text

The listings of formats, settings, connections and handles for a developer.
-/

namespace RemoteCall

namespace Text

/-- A record: its name and its fields in order. -/
def record (name : String) (fields : List (String × String)) : String :=
  name ++ " \x7b " ++ joined ", " (fields.map fun (key, value) => key ++ ": " ++ value) ++ " \x7d"

def truth (b : Bool) : String := if b then "true" else "false"

/-- An optional part. -/
def optional (part : Option String) : String :=
  match part with
  | some s => "Some(" ++ s ++ ")"
  | none => "None"

end Text

/-- A format under the name of its role. -/
def Format.inspect (f : Format) (role : String) : String :=
  Text.record role [("little_endian", Text.truth f.littleEndian),
    ("width", Text.decimal f.width.toNat), ("kind", f.kind.name)]

/-- The name of a format that a process announces. -/
def Format.inspectNative (f : Format) : String := f.inspect "NativeFormat"

/-- A connection over a line with this text. -/
def Connection.inspect (c : Connection) (line : String) : String :=
  Text.record "Connection" [("transport", line), ("native", c.native.inspectNative),
    ("format", c.format.inspect "WireFormat")]

/-- The settings of a client. -/
def ClientSettings.inspect (s : ClientSettings) : String :=
  Text.record "ClientConfig"
    [("communication_timeout", Text.optional (s.communicationTimeout.map Duration.text)),
      ("wait_timeout", Text.optional (s.waitTimeout.map Duration.text)),
      ("max_name_len", Text.decimal s.maxNameLength),
      ("native", Text.optional (s.native.map Format.inspectNative))]

/-- A handle over a line with this text. -/
def Handle.inspect (h : Handle) (line : String) : String :=
  Text.record "Handle" [("conn", Text.record "RefCell" [("value", h.conn.inspect line)]),
    ("config", h.settings.inspect), ("on_error", Text.truth h.watched)]

end RemoteCall
