import RemoteCall.Error.System
import RemoteCall.Wire.Format
import RemoteCall.Wire.Tag

/-!
# Errors

Every way in which a request, a handshake or a connection can fail, as a cause. The wording is in
`message`, the numeric code in `code`, and how far a failure reaches in `severity`: a fatal error
leaves the connection unusable, a non-fatal one ends the current request only, and a peer that hangs
up between requests is no failure at all.
-/

namespace RemoteCall

/-- How far an error reaches. -/
inductive Severity where
  /-- The peer is gone, and nothing was lost. -/
  | done
  /-- The current request failed. -/
  | nonFatal
  /-- The connection is unusable. -/
  | fatal
  deriving DecidableEq, Repr

/-- Bytes or values that do not fit the request they belong to. -/
inductive Violation where
  /-- A string, blob or path of this many bytes. -/
  | oversized (bytes : Nat)
  /-- Tables nested too deeply. -/
  | tooDeep
  /-- An end mark where a value is due. -/
  | strayEnd (tag : Tag)
  /-- The wrong end mark in key position. -/
  | strayEndInTable (tag : Tag)
  /-- A table that ends after a key. -/
  | keyWithoutValue
  /-- A blob whose payload begins with this byte. -/
  | blobPayload (byte : UInt8)
  /-- A blob whose payload is followed by this byte. -/
  | blobUnterminated (byte : UInt8)
  /-- A reference that is not text. -/
  | remoteNotText
  /-- A request path that is not text. -/
  | pathNotText
  /-- The host cannot read the path, and reading has no failure reply. -/
  | unreadable (path message : String)
  | tooManyResults
  | tooManyArguments
  /-- The server does not know the command. -/
  | unsupported (command : Command)
  /-- Another byte where the server should be ready. -/
  | notReady (byte : UInt8)
  | callStatus (byte : UInt8)
  | setStatus (byte : UInt8)
  /-- A violation with a text of its own. -/
  | described (text : String)
  deriving DecidableEq, Repr

/-- What is wrong with a handshake. -/
inductive HandshakeFault where
  | badMagic (bytes : List UInt8)
  | version (theirs ours : UInt8)
  | unknownKind (byte : UInt8)
  | width (kind : NumberKind) (byte : UInt8)
  /-- The first byte of a connection is another command. -/
  | notConnect (byte : UInt8)
  /-- A fault with a text of its own. -/
  | described (text : String)
  deriving DecidableEq, Repr

/-- A failure of an operation on a connection. -/
inductive Error where
  /-- The stream ended inside a request. -/
  | eof
  /-- The connection is already closed. -/
  | closed
  | protocol (violation : Violation)
  /-- A tag that this side does not know. -/
  | unknownTag (byte : UInt8)
  /-- A read brought nothing. -/
  | noData
  /-- A command that this side does not know. -/
  | command (byte : UInt8)
  | header (fault : HandshakeFault)
  /-- A path segment longer than the limit. -/
  | longName (segment : String) (limit : Nat)
  | timeout
  /-- The other side's host failed. -/
  | remote (code : UInt32) (message : String)
  /-- The peer hung up between requests. -/
  | disconnected
  | io (error : IoError)
  deriving DecidableEq, Repr

/-- The most bytes of a string, a blob or a path: sixteen mebibytes. -/
def maxString : Nat := 16 * 1024 * 1024

/-- The most tables nested in one another. -/
def maxDepth : Nat := 64

/-- The text of a violation. -/
def Violation.message : Violation → String
  | .oversized bytes => "string of " ++ Text.decimal bytes ++ " bytes exceeds 16 MiB"
  | .tooDeep => "table nesting exceeds 64 levels"
  | .strayEnd tag => "unexpected " ++ tag.name ++ " marker"
  | .strayEndInTable tag => "unexpected " ++ tag.name ++ " inside table"
  | .keyWithoutValue => "table key without a value"
  | .blobPayload byte => "blob payload must be a string, got tag " ++ Text.decimal byte.toNat
  | .blobUnterminated byte => "blob not terminated, got tag " ++ Text.decimal byte.toNat
  | .remoteNotText => "remote path is not UTF-8"
  | .pathNotText => "path is not UTF-8"
  | .unreadable path message => "get " ++ path ++ ": " ++ message
  | .tooManyResults => "too many return values"
  | .tooManyArguments => "too many arguments"
  | .unsupported command => "server does not support " ++ command.name
  | .notReady byte => "expected READY, got " ++ Text.decimal byte.toNat
  | .callStatus byte => "unexpected call status " ++ Text.decimal byte.toNat
  | .setStatus byte => "unexpected set status " ++ Text.decimal byte.toNat
  | .described text => text

/-- The text of a handshake fault. -/
def HandshakeFault.message : HandshakeFault → String
  | .badMagic bytes => "bad magic [" ++ Text.joined ", " (bytes.map Text.hexByte) ++ "]"
  | .version theirs ours =>
    "peer speaks protocol v" ++ Text.decimal theirs.toNat ++ ", this side v" ++
      Text.decimal ours.toNat
  | .unknownKind byte => "unknown number kind " ++ Text.decimal byte.toNat
  | .width kind byte =>
    "unsupported " ++ kind.name ++ " width of " ++ Text.decimal byte.toNat ++ " bytes"
  | .notConnect byte => "expected CONNECT as first byte, got " ++ Text.decimal byte.toNat
  | .described text => text

namespace Error

/-- How far the error reaches. -/
def severity : Error → Severity
  | .eof | .closed | .unknownTag _ | .header _ | .io _ => .fatal
  | .protocol _ | .noData | .command _ | .longName .. | .timeout | .remote .. => .nonFatal
  | .disconnected => .done

/-- The connection that raised the error is unusable. -/
def isFatal (e : Error) : Bool := e.severity = .fatal

/-- The text of the error. -/
def message : Error → String
  | .eof => "connection closed unexpectedly"
  | .closed => "operation requested on closed transport"
  | .protocol violation => "error in the received protocol: " ++ violation.message
  | .unknownTag byte =>
    "error in the received protocol: unknown type tag " ++ Text.decimal byte.toNat
  | .noData => "no data received when attempting to read"
  | .command byte => "undefined command " ++ Text.decimal byte.toNat
  | .header fault => "header exchange failed: " ++ fault.message
  | .longName segment limit =>
    "function name too long: `" ++ segment ++ "` exceeds " ++ Text.decimal limit ++ " bytes"
  | .timeout => "timeout"
  | .remote _ message => message
  | .disconnected => "peer disconnected"
  | .io error => error.message

/-- The greatest code. Codes of this library lie just below it, away from the system's. -/
def codeBase : Int := 2147483647

/-- The numeric code: the system's own number for system failures, the peer's code, read as signed,
for remote ones. -/
def code : Error → Int
  | .eof => codeBase - 100
  | .closed => codeBase - 101
  | .protocol _ | .unknownTag _ => codeBase - 102
  | .noData => codeBase - 103
  | .command _ => codeBase - 106
  | .header _ => codeBase - 107
  | .longName .. => codeBase - 108
  | .timeout => codeBase - 109
  | .disconnected => codeBase - 110
  | .remote code _ => ofTwosComplement 32 code.toNat
  | .io error => error.number?.getD (-1)

/-- The error that a system failure amounts to. -/
def ofIo (e : IoError) : Error :=
  match e.kind with
  | .unexpectedEnd => .eof
  | .timedOut | .wouldBlock => .timeout
  | _ => .io e

end Error

end RemoteCall
