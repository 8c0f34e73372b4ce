import RemoteCall.Error.Basic

/-!
# Serial ports

A serial port is a line to one peer that keeps nothing back: what is not yet read waits at the
device. A read waits for as many bytes as it was asked for; when the time limit comes first, what
had arrived is lost. A closed port refuses readiness and time limits as every closed line does, and
reads and writes as a device that is not there.
-/

namespace RemoteCall

/-- One end of a serial line. -/
structure SerialPort where
  /-- Bytes that arrived and were not read yet. -/
  arrived : List UInt8 := []
  /-- Bytes that were sent and that the peer has not read yet. -/
  sent : List UInt8 := []
  isOpen : Bool := true
  deriving Repr

namespace SerialPort

/-- The reason of an error number when a device is opened; some have words of their own there. -/
def openReason : Int → String
  | 5 => "I/O error"
  | 25 => "Not a typewriter"
  | 40 => "Too many symbolic links encountered"
  | number => IoError.systemText number

/-- The failure of a device that does not open, with this error number. -/
def openFailure (number : Int) : IoError :=
  .described (IoError.system number).kind (openReason number)

/-- The failure of reading or writing on a closed port. -/
def notConnected : IoError := .plain .notConnected

/-- The peer sends bytes. -/
def peerWrite (p : SerialPort) (bytes : List UInt8) : SerialPort :=
  { p with arrived := p.arrived ++ bytes }

/-- The peer reads bytes. -/
def peerRead (p : SerialPort) (n : Nat) : List UInt8 × SerialPort :=
  (p.sent.take n, { p with sent := p.sent.drop n })

/-- Reads exactly `n` bytes within the time limit. Reading nothing asks nothing of the device. -/
def read (p : SerialPort) (n : Nat) : Except IoError (List UInt8) × SerialPort :=
  if n = 0 then (.ok [], p)
  else if !p.isOpen then (.error notConnected, p)
  else if p.arrived.length < n then (.error (.plain .timedOut), { p with arrived := [] })
  else (.ok (p.arrived.take n), { p with arrived := p.arrived.drop n })

/-- Sends bytes. Sending nothing asks nothing of the device. -/
def write (p : SerialPort) (bytes : List UInt8) : Except IoError Unit × SerialPort :=
  if bytes.isEmpty then (.ok (), p)
  else if !p.isOpen then (.error notConnected, p)
  else (.ok (), { p with sent := p.sent ++ bytes })

/-- Waits until everything is sent. -/
def flush (p : SerialPort) : Except IoError Unit := if p.isOpen then .ok () else .error notConnected

/-- Whether a read would find something at once. -/
def readableNow (p : SerialPort) : Except Error Bool :=
  if p.isOpen then .ok (!p.arrived.isEmpty) else .error .closed

/-- Sets a time limit; the device bounds every wait by some limit, so any will do. -/
def setTimeout (p : SerialPort) : Except Error Unit := if p.isOpen then .ok () else .error .closed

/-- The port has a descriptor to wait on. -/
def hasDescriptor (p : SerialPort) : Bool := p.isOpen

/-- Nothing is kept back from the device. -/
def hasHeld (_ : SerialPort) : Bool := false

/-- Releases the device. -/
def close (p : SerialPort) : SerialPort := { p with isOpen := false }

end SerialPort

end RemoteCall
