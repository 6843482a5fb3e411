import ShredStream.Core.Config
import ShredStream.Core.Telemetry
import ShredStream.Core.Update
import ShredStream.Lib.Machine

/-!
# The gRPC Client

`GrpcClient` as a machine. The asynchronous functions are cut at their await
points: between two of them the source runs without giving up control, so one
stretch is one step, and a suspended call is the await point it stands at. A
dropped future is a call that is forgotten at its await point, leaving the
client as it is there.

What the outside world does — answers of the server, readings of the clocks,
calls of the user — arrives as inputs. What the client does that can be seen
from outside is emitted as outputs: notices fired, connection attempts
started, requests enqueued, sleeps begun, results returned.

The top of the `next_update` loop is `enter`. It never runs twice in one
step, because every arm of the loop either returns or awaits. `try_connect`
has two awaits and is called from two places in the loop, which treat its
result differently; `Site` says which of the two is waiting for it.

Third-party code stands in `Deps`: which strings are URIs and metadata
values, and how a status and a quoted string print.

## Main definitions

* `classify`: What a status means for the stream.
* `Sender`: The request channel of one connection.
* `State`, `GrpcClient`: The client.
* `Await`: The await points of `next_update`.
* `toUpdate`: A response turned into an update, or counted and skipped.
* `enter`, `onMessage`, `onResponse`: The stretches between await points.
* `connect`: The first connection.
* `grpc`: The machine.
-/

namespace ShredStream

namespace Proto

structure BinaryTransaction where
  signatures : List Bytes
  binaryTransaction : Bytes
  deriving DecidableEq, Repr

structure SubscribeUpdateBinaryTransaction where
  transaction : Option BinaryTransaction
  slot : UInt64
  deriving DecidableEq, Repr

structure Timestamp where
  seconds : Int64
  nanos : Int32
  deriving DecidableEq, Repr

structure SubscribeBinaryTransactionsResponse where
  filters : List String
  transaction : Option SubscribeUpdateBinaryTransaction
  createdAt : Option Timestamp
  deriving DecidableEq, Repr

end Proto

namespace Grpc

open Proto

inductive Code where
  | ok
  | cancelled
  | unknown
  | invalidArgument
  | deadlineExceeded
  | notFound
  | alreadyExists
  | permissionDenied
  | resourceExhausted
  | failedPrecondition
  | aborted
  | outOfRange
  | unimplemented
  | internal
  | unavailable
  | dataLoss
  | unauthenticated
  deriving DecidableEq, Repr

structure Status where
  code : Code
  message : String
  deriving DecidableEq, Repr

inductive StreamError where
  | authRefused
  | kicked
  | invalidFilter (text : String)
  | closed
  deriving DecidableEq, Repr

inductive Classified where
  | terminal (e : StreamError)
  | dataLoss
  | recoverable
  deriving DecidableEq, Repr

def classify (status : Status) : Classified :=
  match status.code with
  | .unauthenticated => .terminal .authRefused
  | .permissionDenied => .terminal .kicked
  | .invalidArgument => .terminal (.invalidFilter status.message)
  | .dataLoss => .dataLoss
  | _ => .recoverable

/-- Third-party functions the client calls. -/
structure Deps where
  /-- `Endpoint::from_shared` accepts the URL. -/
  validUri : String → Bool
  /-- The string parses as an `AsciiMetadataValue`. -/
  validMetadata : String → Bool
  /-- `Status::to_string`. -/
  statusText : Status → String
  /-- The quoting of `{:?}`. -/
  debugText : String → String

structure Auth where
  key : String
  value : String
  deriving DecidableEq, Repr

structure Endpoint where
  uri : String
  connectTimeout : Duration
  tcpNodelay : Bool := true
  initialStreamWindowSize : Nat := 4 * 1024 * 1024
  initialConnectionWindowSize : Nat := 16 * 1024 * 1024
  deriving DecidableEq, Repr

/-- How sending on a request channel ends: the request is enqueued, the
    receiver is gone, or the future is dropped while it waits for room. -/
inductive Sent where
  | enqueued
  | closed
  | dropped
  deriving DecidableEq, Repr

/-- The request channel of one connection: the requests sent on it, oldest
    first, each with whether it was enqueued or the receiver was gone. -/
structure Sender where
  log : List (SubscribeBinaryTransactionsRequest × Bool) := []

/-- The requests that went into the channel. -/
def Sender.enqueued (tx : Sender) : List SubscribeBinaryTransactionsRequest :=
  (tx.log.filter (fun r => r.2)).map (fun r => r.1)

def Sender.send (tx : Sender) (req : SubscribeBinaryTransactionsRequest) : Sent → Sender
  | .enqueued => ⟨tx.log ++ [(req, true)]⟩
  | .closed => ⟨tx.log ++ [(req, false)]⟩
  | .dropped => tx

/-- A response stream, named by a number. -/
abbrev StreamId := Nat

inductive State where
  | disconnected
  | connected (stream : StreamId) (reqTx : Sender) (since : Instant)
  | terminal (e : StreamError)
  | finished

structure GrpcClient where
  endpoint : Endpoint
  auth : Auth
  filters : Filters
  state : State
  attempt : UInt32
  everConnected : Bool
  lastDataLoss : Option Instant
  jitter : Jitter
  reconnect : ReconnectPolicy
  stats : Stats

/-- The two calls of `try_connect` in `next_update`. -/
inductive Site where
  | disconnected
  | dataLoss
  deriving DecidableEq, Repr

/-- The await points of `next_update`, with the locals that live across
    them. -/
inductive Await where
  | sleep
  | connect (site : Site)
  | subscribe (site : Site) (reqTx : Sender)
  | message (stable : Bool)

/-- What `next_update` returns. -/
abbrev Item := Option (Except StreamError TransactionUpdate)

inductive Output where
  | notice (n : Notice)
  | sleep (delay : Duration)
  | attempt
  | subscribe (req : SubscribeBinaryTransactionsRequest)
  | returned (item : Item)
  | filtersUpdated (r : Except StreamError Unit)

/-- Where a stretch of `next_update` ends. -/
inductive Progress where
  | ready (item : Item)
  | pending (await : Await)

/-- The clock readings of one stretch, in order. -/
structure Clock where
  first : Instant
  second : Instant
  deriving DecidableEq, Repr

namespace GrpcClient

/-- What `backoff_delay` makes the delay from: a number of seconds. -/
def delaySecs (c : GrpcClient) : ℚ :=
  backoffBound c.reconnect (saturatingSucc c.attempt) * c.jitter.next.2

def backoffDelay (c : GrpcClient) : GrpcClient × Duration :=
  ({ c with attempt := saturatingSucc c.attempt, jitter := c.jitter.next.1 },
    Duration.fromSecsF64 c.delaySecs)

/-- `SystemTime::checked_add`: 64-bit signed seconds. -/
def checkedAdd (t d : Nat) : Option SystemTime :=
  if (t + d) / 10 ^ 9 < 2 ^ 63 then some (t + d) else none

/-- The server's emission time, if it is representable. -/
def createdAt (t : Timestamp) : Option SystemTime := do
  let seconds ← t.seconds.toInt.toNat?
  let base ← checkedAdd 0 (seconds * 10 ^ 9)
  let nanos ← t.nanos.toInt.toNat?
  checkedAdd base nanos

/-- Count a response that carries no transaction. -/
def countDecodeError (c : GrpcClient) : GrpcClient :=
  { c with stats := { c.stats with decodeErrors := c.stats.decodeErrors + 1 } }

def toUpdate (c : GrpcClient) (receivedAt : SystemTime)
    (response : SubscribeBinaryTransactionsResponse) : GrpcClient × Option TransactionUpdate :=
  match response.transaction with
  | none => (c.countDecodeError, none)
  | some update => match update.transaction with
    | none => (c.countDecodeError, none)
    | some tx =>
      if tx.binaryTransaction = [] then (c.countDecodeError, none)
      else
        ({ c with stats :=
            { c.stats with
              messages := c.stats.messages + 1
              bytes := c.stats.bytes + UInt64.ofNat tx.binaryTransaction.length
              lastSlot := update.slot } },
          some
            { slot := update.slot
              bytes := tx.binaryTransaction
              providedSignatures := tx.signatures
              filters := response.filters
              createdAt := response.createdAt.bind createdAt
              receivedAt := receivedAt })

/-- The top of the `next_update` loop, run up to the next await point. The
    clock is read only in the connected arm. -/
def enter (c : GrpcClient) (now : Instant) : GrpcClient × Progress × List Output :=
  match c.state with
  | .finished => (c, .ready none, [])
  -- The error is returned once; the next call finds the client finished.
  | .terminal e => ({ c with state := .finished }, .ready (some (.error e)), [])
  | .disconnected =>
    let d := c.backoffDelay
    (d.1, .pending .sleep, [.notice (.reconnecting d.1.attempt d.2), .sleep d.2])
  | .connected _ _ since =>
    (c, .pending (.message (decide (c.reconnect.resetAfter ≤ since.elapsed now))), [])

/-- `try_connect` up to its first await: the connection attempt begins. -/
def tryConnect (c : GrpcClient) (site : Site) : GrpcClient × Progress × List Output :=
  (c, .pending (.connect site), [.attempt])

/-- `try_connect` has returned to its caller. In the disconnected arm the
    result is thrown away; after a data loss a failure disconnects. -/
def afterConnect (c : GrpcClient) (site : Site) (r : Except Status Unit) (now : Instant) :
    GrpcClient × Progress × List Output :=
  match site, r with
  -- Only whether it failed is looked at, not the status.
  | .dataLoss, .error _ => { c with state := .disconnected }.enter now
  | _, _ => c.enter now

/-- A fresh channel with the current map in it. -/
def freshSender (c : GrpcClient) : Sender :=
  ({} : Sender).send (filtersToProto c.filters) .enqueued

/-- The transport connection is there, or not: `try_connect` up to its second
    await. -/
def onChannel (c : GrpcClient) (site : Site) (r : Except String Unit) (now : Instant) :
    GrpcClient × Progress × List Output :=
  match r with
  | .error e => c.afterConnect site (.error ⟨.unavailable, e⟩) now
  | .ok () =>
    (c, .pending (.subscribe site c.freshSender), [.subscribe (filtersToProto c.filters)])

/-- The subscription was accepted. -/
def subscribed (c : GrpcClient) (stream : StreamId) (reqTx : Sender) (now : Instant) :
    GrpcClient × List Output :=
  let stats := if c.everConnected then { c.stats with reconnects := c.stats.reconnects + 1 }
    else c.stats
  ({ c with stats, everConnected := true, state := .connected stream reqTx now },
    if c.everConnected then [.notice .reconnected] else [])

/-- The server has answered the subscription: the end of `try_connect`. -/
def onResponse (c : GrpcClient) (site : Site) (reqTx : Sender) (r : Except Status StreamId)
    (clock : Clock) : GrpcClient × Progress × List Output :=
  match r with
  | .error status => c.afterConnect site (.error status) clock.second
  | .ok stream =>
    let s := c.subscribed stream reqTx clock.first
    let n := s.1.afterConnect site (.ok ()) clock.second
    (n.1, n.2.1, s.2 ++ n.2.2)

/-- `stream.message()` is ready. -/
def onMessage (c : GrpcClient) (stable : Bool)
    (r : Except Status (Option SubscribeBinaryTransactionsResponse)) (clock : Clock)
    (receivedAt : SystemTime) : GrpcClient × Progress × List Output :=
  match r with
  | .ok (some response) =>
    -- `stable` was decided before the await, when the call reached the stream.
    let c := if stable then { c with attempt := 0 } else c
    match c.toUpdate receivedAt response with
    | (c, some update) => (c, .ready (some (.ok update)), [])
    | (c, none) => c.enter clock.first
  | .ok none => { c with state := .disconnected }.enter clock.first
  | .error status => match classify status with
    | .terminal e => { c with state := .terminal e }.enter clock.first
    | .dataLoss =>
      -- The old connection stays in place until the new one is there.
      let recent := c.lastDataLoss.any
        (fun t => decide (t.elapsed clock.first < Duration.fromSecs 10))
      let c := { c with lastDataLoss := some clock.second }
      if recent then { c with state := .disconnected }.enter clock.second
      else c.tryConnect .dataLoss
    | .recoverable => { c with state := .disconnected }.enter clock.first

/-- `update_filters`, whose send ends as `sent` says if it gets that far. -/
def updateFilters (D : Deps) (c : GrpcClient) (filters : Filters) (sent : Sent) :
    GrpcClient × List Output :=
  match filters.validate with
  | .error e => (c, [.filtersUpdated (.error (.invalidFilter (e.toText D.debugText)))])
  | .ok () =>
    -- The map is stored before the send, which may be dropped or fail.
    let c := { c with filters }
    match c.state with
    | .connected stream reqTx since =>
      ({ c with state := .connected stream (reqTx.send (filtersToProto c.filters) sent) since },
        if sent = .dropped then [] else [.filtersUpdated (.ok ())])
    | _ => (c, [.filtersUpdated (.ok ())])

def close (c : GrpcClient) : GrpcClient := { c with state := .finished }

end GrpcClient

/-- The authentication header. -/
def authOf (D : Deps) (cfg : GrpcConfig) : Except ConnectError Auth :=
  let key := match cfg.authStyle with
    | .bearer => "authorization"
    | .xToken => "x-token"
  let value := match cfg.authStyle with
    | .bearer => "Bearer " ++ cfg.token
    | .xToken => cfg.token
  if D.validMetadata value then .ok ⟨key, value⟩ else .error .invalidToken

/-- `connect` up to its call of `try_connect`: the client before its first
    connection. -/
def prepare (D : Deps) (cfg : GrpcConfig) (sinceEpoch : Option Nat) :
    Except ConnectError GrpcClient := do
  cfg.filters.validate.mapError ConnectError.filter
  let url ← normalizeEndpoint cfg.endpoint
  if D.validUri url then
    let auth ← authOf D cfg
    return {
      endpoint := { uri := url, connectTimeout := cfg.connectTimeout }
      auth, filters := cfg.filters, state := .disconnected, attempt := 0
      everConnected := false, lastDataLoss := none, jitter := Jitter.new sinceEpoch
      reconnect := cfg.reconnect, stats := {} }
  else .error (.invalidEndpoint cfg.endpoint)

/-- The error of `connect` for the status of the first attempt. -/
def connectError (D : Deps) (status : Status) : ConnectError :=
  match classify status with
  | .terminal .authRefused =>
    .transport "authentication refused (check your token and product)"
  | _ => .transport (D.statusText status)

/-- `connect`, given how the transport and the server answer. -/
def connect (D : Deps) (cfg : GrpcConfig) (sinceEpoch : Option Nat) (channel : Except String Unit)
    (response : Except Status StreamId) (now : Instant) : Except ConnectError GrpcClient := do
  let client ← prepare D cfg sinceEpoch
  match channel, response with
  | .error e, _ => .error (connectError D ⟨.unavailable, e⟩)
  | .ok (), .error status => .error (connectError D status)
  | .ok (), .ok stream => .ok (client.subscribed stream client.freshSender now).1

/-- A client, with the `next_update` call in progress on it. -/
structure Config where
  client : GrpcClient
  call : Option Await

inductive Input where
  /-- `next_update` is called and polled. -/
  | nextUpdate (now : Instant)
  /-- The timer fires. -/
  | slept
  /-- `endpoint.connect()` is ready. -/
  | channel (r : Except String Unit) (now : Instant)
  /-- The subscription is answered. -/
  | response (r : Except Status StreamId) (clock : Clock)
  /-- `stream.message()` is ready. -/
  | message (r : Except Status (Option SubscribeBinaryTransactionsResponse)) (clock : Clock)
      (receivedAt : SystemTime)
  /-- The future of the call in progress is dropped. -/
  | dropCall
  /-- `update_filters` is called; its send ends as `sent` says. -/
  | updateFilters (filters : Filters) (sent : Sent)
  | close

/-- The call in progress has reached its next await point, or returns. -/
def settle (r : GrpcClient × Progress × List Output) : Config × List Output :=
  match r.2.1 with
  | .pending await => (⟨r.1, some await⟩, r.2.2)
  | .ready item => (⟨r.1, none⟩, r.2.2 ++ [.returned item])

/-- One input. Calls need `&mut self`, so none can start while another is in
    progress, and only the await point a call stands at can become ready. -/
def step (D : Deps) (s : Config) (i : Input) : Option (Config × List Output) :=
  match s.call, i with
  | none, .nextUpdate now => some (settle (s.client.enter now))
  | none, .updateFilters filters sent =>
    let r := s.client.updateFilters D filters sent
    some (⟨r.1, none⟩, r.2)
  | none, .close => some (⟨s.client.close, none⟩, [])
  | some .sleep, .slept => some (settle (s.client.tryConnect .disconnected))
  | some (.connect site), .channel r now => some (settle (s.client.onChannel site r now))
  | some (.subscribe site reqTx), .response r clock =>
    some (settle (s.client.onResponse site reqTx r clock))
  | some (.message stable), .message r clock receivedAt =>
    some (settle (s.client.onMessage stable r clock receivedAt))
  | some _, .dropCall => some (⟨s.client, none⟩, [])
  | _, _ => none

/-- The client as a machine. -/
def grpc (D : Deps) : Machine Config Input Output := ⟨step D⟩

/-- A client just returned by a successful `connect`, with no call on it. -/
def Connected (D : Deps) (s : Config) : Prop :=
  ∃ cfg sinceEpoch stream now,
    connect D cfg sinceEpoch (.ok ()) (.ok stream) now = .ok s.client ∧ s.call = none

end Grpc

end ShredStream
