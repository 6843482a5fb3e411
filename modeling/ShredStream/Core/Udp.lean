import ShredStream.Core.Frame
import ShredStream.Lib.BoundedFifo
import ShredStream.Lib.Machine
import ShredStream.Lib.Notify

/-!
# UDP Client

A receive thread decodes datagrams and pushes the updates into a bounded
queue; a consumer takes them out. They share the queue, the `closed` flag,
the counters and a `Notify`, and every access to one of these is one step of
the machine below, so that an input list is an interleaving.

The thread goes around its loop: it reads the flag, receives, decodes, pushes,
counts an eviction, notifies. When it leaves the loop its shutdown guard sets
the flag and notifies once more.

The consumer makes one call at a time. `next_update` is a future that may be
dropped while it is parked, together with its waiter. `poll_next` returns
`Pending` instead and keeps its waiter in `waiting` for the next call of it.
`try_next_update` pops once. `close` sets the flag and joins the thread.

The results of the socket are inputs: a datagram cut to the buffer's size, a
timeout, or an error.

## Main definitions

* `ThreadPc`, `ConsumerPc`: Where the two parties are.
* `UdpClient`: What they share, and their places.
* `Action`: Who moves, and what the outside hands them.
* `udp`: The machine.
-/

namespace ShredStream

namespace Udp

open Codec

/-- What `recv` on the socket gives. -/
inductive Received where
  | datagram (now : SystemTime) (bytes : Bytes)
  | timeout
  | failed
  deriving DecidableEq

/-- The places of the receive thread. -/
inductive ThreadPc where
  | check
  | recv
  | push (u : TransactionUpdate)
  | count
  | notify
  | shutStore
  | shutNotify
  | done
  deriving DecidableEq

/-- The two calls that wait. -/
inductive Waiting where
  | nextUpdate
  | pollNext
  deriving DecidableEq, Repr

inductive Call where
  | wait (a : Waiting)
  | tryNextUpdate
  | close
  deriving DecidableEq, Repr

/-- The places of the consumer: between calls, between calls after a
    `poll_next` that returned `Pending`, or inside a call. -/
inductive ConsumerPc where
  | idle
  | pending
  | pop (a : Waiting)
  | release
  | check (a : Waiting)
  | last (a : Waiting)
  | wait (a : Waiting)
  | parked (w : Nat)
  | tryPop
  | closeStore
  | join
  deriving DecidableEq, Repr

structure UdpClient where
  capacity : Nat
  queue : List TransactionUpdate := []
  notify : Notify := {}
  closed : Bool := false
  decoder : StreamDecoder := .new
  thread : ThreadPc := .check
  consumer : ConsumerPc := .idle
  waiting : Option Nat := none
  deriving DecidableEq

inductive Action where
  | recv (r : Received)
  | thread
  | call (c : Call)
  | consumer
  | dropCall
  deriving DecidableEq

inductive Output where
  | notice (n : Notice)
  | produced (u : TransactionUpdate)
  | pushed (u : TransactionUpdate)
  | evicted (u : TransactionUpdate)
  | counted
  | received (u : TransactionUpdate)
  | nothing (c : Call)
  | pending
  | closed
  deriving DecidableEq

/-- The client as `bind` returns it, apart from the socket. -/
def bind (queueCapacity : Nat) : UdpClient where
  capacity := max queueCapacity 1

namespace UdpClient

/-- The thread decodes what it received. -/
def decode (s : UdpClient) (now : SystemTime) (bytes : Bytes) : UdpClient × List Output :=
  let p := s.decoder.push now bytes
  let notices := p.notices.map Output.notice
  match p.result with
  | .update u => ({ s with decoder := p.decoder, thread := .push u }, notices ++ [.produced u])
  | _ => ({ s with decoder := p.decoder, thread := .check }, notices)

/-- The thread pushes an update; an eviction remains to be counted. -/
def pushUpdate (s : UdpClient) (u : TransactionUpdate) : UdpClient × List Output :=
  match BoundedFifo.forcePush s.capacity s.queue u with
  | (queue, none) => ({ s with queue := queue, thread := .notify }, [.pushed u])
  | (queue, some old) => ({ s with queue := queue, thread := .count }, [.pushed u, .evicted old])

def countDrop (s : UdpClient) : UdpClient :=
  { s with
    decoder := { s.decoder with stats :=
      { s.decoder.stats with queueDropped := s.decoder.stats.queueDropped + 1 } }
    thread := .notify }

/-- One step of the thread, other than receiving. -/
def stepThread (s : UdpClient) : Option (UdpClient × List Output) :=
  match s.thread with
  | .check => some ({ s with thread := if s.closed then .shutStore else .recv }, [])
  | .recv => none
  | .push u => some (s.pushUpdate u)
  | .count => some (s.countDrop, [.counted])
  | .notify => some ({ s with notify := s.notify.notifyOne, thread := .check }, [])
  | .shutStore => some ({ s with closed := true, thread := .shutNotify }, [])
  | .shutNotify => some ({ s with notify := s.notify.notifyOne, thread := .done }, [])
  | .done => none

/-- The thread receives. -/
def stepRecv (s : UdpClient) (r : Received) : Option (UdpClient × List Output) :=
  if s.thread = .recv then
    match r with
    | .timeout => some ({ s with thread := .check }, [])
    -- Leaving the loop runs the shutdown guard.
    | .failed => some ({ s with thread := .shutStore }, [])
    | .datagram now bytes => some (s.decode now bytes)
  else none

/-- The first pop of a waiting call. `poll_next` still has to let go of its
    waiter before it returns. -/
def stepPop (s : UdpClient) (a : Waiting) : UdpClient × List Output :=
  match BoundedFifo.pop s.queue with
  | (queue, some u) =>
    match a with
    | .nextUpdate => ({ s with queue := queue, consumer := .idle }, [.received u])
    | .pollNext => ({ s with queue := queue, consumer := .release }, [.received u])
  | (_, none) => ({ s with consumer := .check a }, [])

/-- A pop whose result the call returns, whatever it is. -/
def lastPop (s : UdpClient) (c : Call) : UdpClient × List Output :=
  match BoundedFifo.pop s.queue with
  | (queue, some u) => ({ s with queue := queue, consumer := .idle }, [.received u])
  | (_, none) => ({ s with consumer := .idle }, [.nothing c])

/-- `self.waiting = None` drops the waiter, if there is one. -/
def release (s : UdpClient) : UdpClient :=
  { s with
    notify := match s.waiting with
      | some w => s.notify.drop w
      | none => s.notify
    waiting := none
    consumer := .idle }

/-- A waiting call found nothing: it polls a waiter, `next_update` always a new
    one. -/
def stepWait (s : UdpClient) (a : Waiting) : UdpClient × List Output :=
  match a with
  | .nextUpdate => match s.notify.register with
    | (n, none) => ({ s with notify := n, consumer := .pop .nextUpdate }, [])
    | (n, some w) => ({ s with notify := n, consumer := .parked w }, [])
  | .pollNext => match s.waiting with
    | none => match s.notify.register with
      | (n, none) => ({ s with notify := n, consumer := .pop .pollNext }, [])
      | (n, some w) =>
        ({ s with notify := n, waiting := some w, consumer := .pending }, [.pending])
    | some w => match s.notify.poll w with
      | (n, true) => ({ s with notify := n, waiting := none, consumer := .pop .pollNext }, [])
      | (_, false) => ({ s with consumer := .pending }, [.pending])

/-- One step of the call in progress. -/
def stepConsumer (s : UdpClient) : Option (UdpClient × List Output) :=
  match s.consumer with
  | .idle => none
  | .pending => none
  | .pop a => some (s.stepPop a)
  | .release => some (s.release, [])
  | .check a => some ({ s with consumer := if s.closed then .last a else .wait a }, [])
  | .last a => some (s.lastPop (.wait a))
  | .wait a => some (s.stepWait a)
  -- A parked future may be polled at any time; only a notified one goes on.
  | .parked w => match s.notify.poll w with
    | (n, true) => some ({ s with notify := n, consumer := .pop .nextUpdate }, [])
    | (_, false) => some (s, [])
  | .tryPop => some (s.lastPop .tryNextUpdate)
  | .closeStore => some ({ s with closed := true, consumer := .join }, [])
  | .join => if s.thread = .done then some ({ s with consumer := .idle }, [.closed]) else none

/-- A call starts, between calls. -/
def stepCall (s : UdpClient) (c : Call) : Option (UdpClient × List Output) :=
  if s.consumer = .idle ∨ s.consumer = .pending then
    some ({ s with consumer := match c with
      | .wait a => .pop a
      | .tryNextUpdate => .tryPop
      | .close => .closeStore }, [])
  else none

/-- The future of a parked `next_update` is dropped, and its waiter with it. -/
def stepDrop (s : UdpClient) : Option (UdpClient × List Output) :=
  match s.consumer with
  | .parked w => some ({ s with notify := s.notify.drop w, consumer := .idle }, [])
  | _ => none

def step (s : UdpClient) : Action → Option (UdpClient × List Output)
  | .recv r => s.stepRecv r
  | .thread => s.stepThread
  | .call c => s.stepCall c
  | .consumer => s.stepConsumer
  | .dropCall => s.stepDrop

end UdpClient

/-- The client driven from outside. -/
def udp : Machine UdpClient Action Output where
  step := UdpClient.step

end Udp

end ShredStream
