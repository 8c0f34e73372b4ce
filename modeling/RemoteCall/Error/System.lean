import RemoteCall.Text.Quoted

/-!
# Failures of the operating system

What a read, a write or a connection attempt can fail with below the protocol: an error number of
the system, or a failure that has only a kind. The texts of the error numbers are those of the
system's own table.
-/

namespace RemoteCall

/-- The kinds of system failure that are told apart. -/
inductive IoKind where
  | interrupted
  | timedOut
  | wouldBlock
  | unexpectedEnd
  | notConnected
  | brokenPipe
  | invalidInput
  | invalidData
  | notFound
  | connectionRefused
  | networkUnreachable
  | other
  deriving DecidableEq, Repr

/-- A system failure. -/
inductive IoError where
  /-- An error number of the system. -/
  | system (number : Int)
  /-- A failure known by its kind only. -/
  | plain (kind : IoKind)
  /-- A failure with a text of its own. -/
  | described (kind : IoKind) (text : String)
  deriving DecidableEq, Repr

/-- The text of a kind. -/
def IoKind.text : IoKind → String
  | .interrupted => "operation interrupted"
  | .timedOut => "timed out"
  | .wouldBlock => "operation would block"
  | .unexpectedEnd => "unexpected end of file"
  | .notConnected => "not connected"
  | .brokenPipe => "broken pipe"
  | .invalidInput => "invalid input parameter"
  | .invalidData => "invalid data"
  | .notFound => "entity not found"
  | .connectionRefused => "connection refused"
  | .networkUnreachable => "network unreachable"
  | .other => "other error"

namespace IoError

/-- The texts of the system's error numbers, from zero on. -/
def systemTexts : List String := [
  "Success", "Operation not permitted", "No such file or directory", "No such process",
  "Interrupted system call", "Input/output error", "No such device or address",
  "Argument list too long", "Exec format error", "Bad file descriptor", "No child processes",
  "Resource temporarily unavailable", "Cannot allocate memory", "Permission denied",
  "Bad address", "Block device required", "Device or resource busy", "File exists",
  "Invalid cross-device link", "No such device", "Not a directory", "Is a directory",
  "Invalid argument", "Too many open files in system", "Too many open files",
  "Inappropriate ioctl for device", "Text file busy", "File too large", "No space left on device",
  "Illegal seek", "Read-only file system", "Too many links", "Broken pipe",
  "Numerical argument out of domain", "Numerical result out of range",
  "Resource deadlock avoided", "File name too long", "No locks available",
  "Function not implemented", "Directory not empty", "Too many levels of symbolic links",
  "Unknown error 41", "No message of desired type", "Identifier removed",
  "Channel number out of range", "Level 2 not synchronized", "Level 3 halted", "Level 3 reset",
  "Link number out of range", "Protocol driver not attached", "No CSI structure available",
  "Level 2 halted", "Invalid exchange", "Invalid request descriptor", "Exchange full", "No anode",
  "Invalid request code", "Invalid slot", "Unknown error 58", "Bad font file format",
  "Device not a stream", "No data available", "Timer expired", "Out of streams resources",
  "Machine is not on the network", "Package not installed", "Object is remote",
  "Link has been severed", "Advertise error", "Srmount error", "Communication error on send",
  "Protocol error", "Multihop attempted", "RFS specific error", "Bad message",
  "Value too large for defined data type", "Name not unique on network",
  "File descriptor in bad state", "Remote address changed",
  "Can not access a needed shared library", "Accessing a corrupted shared library",
  ".lib section in a.out corrupted", "Attempting to link in too many shared libraries",
  "Cannot exec a shared library directly", "Invalid or incomplete multibyte or wide character",
  "Interrupted system call should be restarted", "Streams pipe error", "Too many users",
  "Socket operation on non-socket", "Destination address required", "Message too long",
  "Protocol wrong type for socket", "Protocol not available", "Protocol not supported",
  "Socket type not supported", "Operation not supported", "Protocol family not supported",
  "Address family not supported by protocol", "Address already in use",
  "Cannot assign requested address", "Network is down", "Network is unreachable",
  "Network dropped connection on reset", "Software caused connection abort",
  "Connection reset by peer", "No buffer space available",
  "Transport endpoint is already connected", "Transport endpoint is not connected",
  "Cannot send after transport endpoint shutdown", "Too many references: cannot splice",
  "Connection timed out", "Connection refused", "Host is down", "No route to host",
  "Operation already in progress", "Operation now in progress", "Stale file handle",
  "Structure needs cleaning", "Not a XENIX named type file", "No XENIX semaphores available",
  "Is a named type file", "Remote I/O error", "Disk quota exceeded", "No medium found",
  "Wrong medium type", "Operation canceled", "Required key not available", "Key has expired",
  "Key has been revoked", "Key was rejected by service", "Owner died", "State not recoverable",
  "Operation not possible due to RF-kill", "Memory page has hardware error"]

/-- The text of an error number. -/
def systemText (number : Int) : String :=
  match (if number < 0 then none else systemTexts[number.toNat]?) with
  | some text => text
  | none => "Unknown error " ++ Text.signedDecimal number

/-- The kind of a failure. -/
def kind : IoError → IoKind
  | .system 2 => .notFound
  | .system 4 => .interrupted
  | .system 11 => .wouldBlock
  | .system 22 => .invalidInput
  | .system 32 => .brokenPipe
  | .system 101 => .networkUnreachable
  | .system 107 => .notConnected
  | .system 110 => .timedOut
  | .system 111 => .connectionRefused
  | .system _ => .other
  | .plain kind => kind
  | .described kind _ => kind

/-- The system's error number, if there is one. -/
def number? : IoError → Option Int
  | .system number => some number
  | _ => none

/-- The text of a failure; an error number follows its text. -/
def message : IoError → String
  | .system number =>
    systemText number ++ " (os error " ++ Text.signedDecimal number ++ ")"
  | .plain kind => kind.text
  | .described _ text => text

end IoError

end RemoteCall
