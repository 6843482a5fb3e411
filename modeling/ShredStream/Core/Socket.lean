import ShredStream.Core.Udp

/-!
# Sockets

How both ways of receiving get their socket, and the simpler of the two,
`run_blocking`: one loop on the calling thread that receives, decodes and
hands each update to a callback, until the callback breaks or the socket
fails.

What the operating system answers is a parameter. The receive buffer is
requested before the port is bound and read back afterwards; Linux reports
twice what it grants. A buffer smaller than the one requested fires a notice,
on a hook that was made a moment ago.

A datagram is received into a buffer of fixed size, and what does not fit is
cut off.

## Main definitions

* `UdpConfig`: What the user asks for.
* `SocketCalls`: What the operating system answers.
* `bindSocket`: The socket of either way of receiving.
* `bindOn`: `UdpClient::bind`, with the socket.
* `recvInto`: What fits into the receive buffer.
* `runBlocking`: The blocking loop.
-/

namespace ShredStream

namespace Udp

open Codec

inductive IpAddr where
  | v4 (octets : BitVec 32)
  | v6 (octets : BitVec 128)
  deriving DecidableEq, Repr

structure SocketAddr where
  host : IpAddr
  port : UInt16
  deriving DecidableEq, Repr

structure UdpConfig where
  port : UInt16 := 0
  host : IpAddr := .v4 0
  recvBufferBytes : Nat := 64 <<< 20
  queueCapacity : Nat := 8192
  deriving DecidableEq, Repr

/-- What the operating system answers to the calls that set up a socket. -/
structure SocketCalls (ε : Type) where
  new : SocketAddr → Except ε Unit
  setRecvBufferSize : Nat → Except ε Unit
  bind : SocketAddr → Except ε Unit
  recvBufferSize : Except ε Nat
  setReadTimeout : (millis : Nat) → Except ε Unit
  localAddr : Except ε SocketAddr
  /-- `cfg!(target_os = "linux")`. -/
  linux : Bool

variable {ε κ : Type}

/-- The size granted. A size that cannot be read counts as zero. -/
def SocketCalls.effective (os : SocketCalls ε) : Nat :=
  let raw := match os.recvBufferSize with
    | .ok raw => raw
    | .error _ => 0
  if os.linux then raw / 2 else raw

/-- `bind_socket`: the counters it leaves behind and the notices it fires. -/
def bindSocket (os : SocketCalls ε) (cfg : UdpConfig) : Except ε (Stats × List Notice) := do
  let addr : SocketAddr := ⟨cfg.host, cfg.port⟩
  os.new addr
  os.setRecvBufferSize cfg.recvBufferBytes
  os.bind addr
  return ({ recvBufferBytes := UInt64.ofNat os.effective },
    if os.effective < cfg.recvBufferBytes then
      [.recvBufferClamped cfg.recvBufferBytes os.effective]
    else [])

/-- A client with its socket, and the notices fired while it was set up. -/
structure Bound where
  client : UdpClient
  localAddr : SocketAddr
  fired : List Notice

/-- `UdpClient::bind`. The receive thread gets the counters of the socket. -/
def bindOn (os : SocketCalls ε) (cfg : UdpConfig) : Except ε Bound := do
  let (stats, fired) ← bindSocket os cfg
  os.setReadTimeout 50
  let localAddr ← os.localAddr
  return { client := { bind cfg.queueCapacity with decoder := { stats } }, localAddr, fired }

/-- What `recv` writes into a buffer of `MAX_DATAGRAM + 64` bytes. -/
def recvInto (datagram : Bytes) : Bytes := datagram.take (maxDatagram + 64)

inductive ControlFlow where
  | continue
  | break
  deriving DecidableEq, Repr

/-- What `recv` on a blocking socket gives. -/
inductive Recv (ε : Type) where
  | datagram (now : SystemTime) (bytes : Bytes)
  | failed (e : ε)

/-- A loop that has been fed what its socket received: the callback's state,
    the updates it was called with, and what was returned. It has returned
    nothing while it waits in `recv`. -/
structure Blocking (ε κ : Type) where
  state : κ
  calls : List TransactionUpdate
  result : Option (Except ε Unit)

/-- The loop of `run_blocking`. The callback is a function with a state of its
    own. -/
def receiveLoop (f : κ → TransactionUpdate → κ × ControlFlow) :
    StreamDecoder → κ → List (Recv ε) → Blocking ε κ
  | _, k, [] => ⟨k, [], none⟩
  | _, k, .failed e :: _ => ⟨k, [], some (.error e)⟩
  | decoder, k, .datagram now bytes :: received =>
    let p := decoder.push now (recvInto bytes)
    match p.result with
    | .update update => match f k update with
      | (k, .break) => ⟨k, [update], some (.ok ())⟩
      | (k, .continue) =>
        let rest := receiveLoop f p.decoder k received
        { rest with calls := update :: rest.calls }
    | _ => receiveLoop f p.decoder k received

/-- `run_blocking`. Its hook and the counters of its socket are out of reach. -/
def runBlocking (os : SocketCalls ε) (cfg : UdpConfig)
    (f : κ → TransactionUpdate → κ × ControlFlow) (k : κ) (received : List (Recv ε)) :
    Blocking ε κ :=
  match bindSocket os cfg with
  | .error e => ⟨k, [], some (.error e)⟩
  | .ok _ => receiveLoop f .new k received

end Udp

end ShredStream
