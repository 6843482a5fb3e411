import ShredStream.Core.Time

/-!
# Statistics and Notices

The two channels through which a client reports on itself: counters, which
are read, and notices, which are pushed to a callback.

The counters are atomic 64-bit words bumped with `fetch_add`, so they wrap;
`UInt64` addition is that. A notice that is fired reaches the callback if one
is registered. The model records the firing and leaves the callback to the
caller.

The delay of a backoff is the `Duration` that is slept, in whole nanoseconds.
How it is computed, and what that leaves out of `f64`, is said in
`Core/Config.lean`.

## Main definitions

* `Stats`: The counters.
* `Notice`: What is reported to the callback.
-/

namespace ShredStream

structure Stats where
  messages : UInt64 := 0
  bytes : UInt64 := 0
  datagrams : UInt64 := 0
  decodeErrors : UInt64 := 0
  skippedMsgType : UInt64 := 0
  queueDropped : UInt64 := 0
  reconnects : UInt64 := 0
  lastSlot : UInt64 := 0
  recvBufferBytes : UInt64 := 0
  deriving DecidableEq, Repr

inductive Notice where
  | decodeError
  | recvBufferClamped (requested effective : Nat)
  | reconnecting (attempt : UInt32) (delay : Duration)
  | reconnected
  deriving DecidableEq

end ShredStream
