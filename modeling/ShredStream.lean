import ShredStream.Lib.Machine
import ShredStream.Lib.Simulation
import ShredStream.Lib.Cursor
import ShredStream.Lib.Panic
import ShredStream.Lib.Recorded
import ShredStream.Lib.Numeral
import ShredStream.Lib.Shortest
import ShredStream.Lib.Xorshift
import ShredStream.Lib.FullPeriod
import ShredStream.Lib.Reassembly
import ShredStream.Lib.Loss
import ShredStream.Lib.Windows
import ShredStream.Lib.BoundedFifo
import ShredStream.Lib.Feed
import ShredStream.Lib.Backlog
import ShredStream.Lib.Notify
import ShredStream.Lib.Callback
import ShredStream.Lib.EditDistance
import ShredStream.Lib.Rounding
import ShredStream.Core.Message
import ShredStream.Core.Time
import ShredStream.Core.Telemetry
import ShredStream.Core.Update
import ShredStream.Core.Frame
import ShredStream.Core.Checked
import ShredStream.Core.Wrapping
import ShredStream.Core.Reserve
import ShredStream.Core.Udp
import ShredStream.Core.Socket
import ShredStream.Core.Filters
import ShredStream.Core.Config
import ShredStream.Core.Grpc
import ShredStream.Core.Hook
import ShredStream.Core.Unfold
import ShredStream.Theory.Filters
import ShredStream.Theory.Endpoint
import ShredStream.Theory.Frame.Step
import ShredStream.Theory.Frame.Reassembly
import ShredStream.Theory.Frame.Sender
import ShredStream.Theory.Frame.Accounting
import ShredStream.Theory.Frame.Invariant
import ShredStream.Theory.Frame.Malformed
import ShredStream.Theory.Frame.Interleaved
import ShredStream.Theory.Frame.Lossy
import ShredStream.Theory.Frame.Duplicates
import ShredStream.Theory.Frame.Resync
import ShredStream.Theory.Frame.Edits
import ShredStream.Theory.Message.Layout
import ShredStream.Theory.Message.Encode
import ShredStream.Theory.Message.Version1
import ShredStream.Theory.Message.V1Transaction
import ShredStream.Theory.Message.Container
import ShredStream.Theory.Message.CountedTransaction
import ShredStream.Theory.Message.Accessors
import ShredStream.Theory.Message.Sound
import ShredStream.Theory.Message.Truncation
import ShredStream.Theory.Message.Canonical
import ShredStream.Theory.Message.Programs
import ShredStream.Theory.Message.Wrapping
import ShredStream.Theory.Message.Reserve
import ShredStream.Theory.Checked.Message
import ShredStream.Theory.Checked.Update
import ShredStream.Theory.Checked.Receive
import ShredStream.Theory.Udp.Step
import ShredStream.Theory.Udp.Ledger
import ShredStream.Theory.Udp.Wakeup
import ShredStream.Theory.Udp.Ending
import ShredStream.Theory.Udp.Opened
import ShredStream.Theory.Udp.EndToEnd
import ShredStream.Theory.Udp.Repeats
import ShredStream.Theory.Udp.Blocking
import ShredStream.Theory.Udp.Feed
import ShredStream.Theory.Udp.Backlog
import ShredStream.Theory.Udp.Panicking
import ShredStream.Theory.Udp.Closing
import ShredStream.Theory.Udp.Memory
import ShredStream.Theory.Udp.Mishaps
import ShredStream.Theory.Grpc.Step
import ShredStream.Theory.Grpc.Terminal
import ShredStream.Theory.Grpc.FilterMap
import ShredStream.Theory.Grpc.Subscriptions
import ShredStream.Theory.Grpc.Delivery
import ShredStream.Theory.Grpc.Attempts
import ShredStream.Theory.Grpc.Recovery
import ShredStream.Theory.Grpc.Announce
import ShredStream.Theory.Grpc.Jitter
import ShredStream.Theory.Grpc.Draws
import ShredStream.Theory.Grpc.Backoff
import ShredStream.Theory.Grpc.Reset
import ShredStream.Theory.Grpc.Ending
import ShredStream.Theory.Grpc.Feed
import ShredStream.Theory.Grpc.Unfold
import ShredStream.Theory.Transports
import ShredStream.Theory.Notices
import ShredStream.Theory.WholePath
