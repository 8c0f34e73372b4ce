import RemoteCall.Value.Display
import RemoteCall.Value.Json
import RemoteCall.Path
import RemoteCall.Serve
import RemoteCall.Settings.File
import RemoteCall.Client.Proxy
import RemoteCall.Client.Inspect
import RemoteCall.Namespace.Inspect
import RemoteCall.Namespace.Stock
import RemoteCall.Line.Link
import RemoteCall.Line.Network
import RemoteCall.Line.Serial
import RemoteCall.Server.Inspect
import RemoteCall.Server.Wait
import RemoteCall.Server.Peek
import RemoteCall.Number.Literal
import RemoteCall.CommandLine.Invocation
import RemoteCall.CommandLine.Run
import RemoteCall.CommandLine.Memory
import RemoteCall.Main
import RemoteCall.Proofs.Computation
import RemoteCall.Proofs.Line.Reading
import RemoteCall.Proofs.Line.Pauses
import RemoteCall.Proofs.Line.Link
import RemoteCall.Proofs.Text.Utf8
import RemoteCall.Proofs.Path
import RemoteCall.Proofs.Value.Pairs
import RemoteCall.Proofs.Wire.Bytes
import RemoteCall.Proofs.Wire.Grammar
import RemoteCall.Proofs.Wire.Reading
import RemoteCall.Proofs.Wire.Cut
import RemoteCall.Proofs.Wire.RoundTrip
import RemoteCall.Proofs.Wire.Frame
import RemoteCall.Proofs.Connection
import RemoteCall.Proofs.Client.Boundary
import RemoteCall.Proofs.Client.LifeCycle
import RemoteCall.Proofs.Client.Proxies
import RemoteCall.Proofs.Serve.Request
import RemoteCall.Proofs.Serve.Reply
import RemoteCall.Proofs.Wire.Severity
import RemoteCall.Proofs.Serve.Closed
import RemoteCall.Proofs.Wire.Refusal
import RemoteCall.Proofs.Serve.Round
import RemoteCall.Proofs.Serve.Stream
import RemoteCall.Proofs.Serve.Cut
import RemoteCall.Proofs.Serve.Framing
import RemoteCall.Proofs.Serve.Completion
import RemoteCall.Proofs.Serve.Pauses
import RemoteCall.Proofs.Serve.Timeouts
import RemoteCall.Proofs.Serve.Greeting
import RemoteCall.Proofs.Serve.Answers
import RemoteCall.Proofs.Handshake
import RemoteCall.Proofs.Conversation
import RemoteCall.Proofs.Remote.Client
import RemoteCall.Proofs.Remote.Server
import RemoteCall.Proofs.Remote.Joined
import RemoteCall.Proofs.Remote.Greeting
import RemoteCall.Proofs.Remote.Local
import RemoteCall.Proofs.Server.Dialogue
import RemoteCall.Proofs.Server.Interleaving
import RemoteCall.Proofs.Formats
import RemoteCall.Proofs.Remote.Outcome
import RemoteCall.Proofs.Remote.Agreement
import RemoteCall.Proofs.Namespace.Navigation
import RemoteCall.Proofs.Namespace.Assign
import RemoteCall.Proofs.Namespace.Reach
import RemoteCall.Proofs.Namespace.References
import RemoteCall.Proofs.Line.Flow
import RemoteCall.Proofs.Wire.Closed
import RemoteCall.Proofs.Wire.Accepted
import RemoteCall.Proofs.Flow
import RemoteCall.Proofs.Serve.Flow
import RemoteCall.Proofs.Wire.Ending
import RemoteCall.Proofs.Cutting
import RemoteCall.Proofs.Serve.Accepted
import RemoteCall.Proofs.Serve.Ending
import RemoteCall.Proofs.Server.Pass
import RemoteCall.Proofs.Server.Containment
import RemoteCall.Proofs.Server.History
import RemoteCall.Proofs.Server.Loops
import RemoteCall.Proofs.Namespace.Removal
import RemoteCall.Proofs.Namespace.Snapshot
import RemoteCall.Proofs.Serve.Failure
import RemoteCall.Proofs.Number.Magnitude
import RemoteCall.Proofs.Number.Binary64
import RemoteCall.Proofs.Number.Rounding
import RemoteCall.Proofs.Wire.Numbers
import RemoteCall.Proofs.Wire.Trips
import RemoteCall.Proofs.Wire.Rejected
import RemoteCall.Proofs.Wire.Decoding
import RemoteCall.Proofs.Wire.Truncation
import RemoteCall.Proofs.Wire.Limits
import RemoteCall.Proofs.Namespace.Frame
import RemoteCall.Proofs.Namespace.Placement
import RemoteCall.Proofs.Client.Failures
import RemoteCall.Proofs.Client.Chains
import RemoteCall.Proofs.Path.Segments
import RemoteCall.Proofs.CommandLine.Assignment
import RemoteCall.Proofs.Text.Order
import RemoteCall.Proofs.Value.Json
import RemoteCall.Proofs.Text.Digits
import RemoteCall.Proofs.Json.Pretty
import RemoteCall.Proofs.Settings.Address
import RemoteCall.Proofs.Settings.Field
import RemoteCall.Proofs.Settings.File
import RemoteCall.Proofs.Server.Peek
import RemoteCall.Proofs.Value.Equality
import RemoteCall.Proofs.Namespace.Storing
