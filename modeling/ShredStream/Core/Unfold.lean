import ShredStream.Core.Grpc

/-!
# The Stream Adaptor

`into_stream` turns a client into a stream by hand. The stream owns a boxed
future, the future owns the client, and the two are taken apart and put
together again on every item: a future that is ready hands back the client it
was built from, and the next future is built from that one.

A future of `next_update` is a client with the call on it, as the machine has
it. It has not started while no call is on it. What becomes ready while it is
polled arrives with the poll, as a list: the future runs through as many of
its await points as the list has answers for, so a poll may cross none of
them, or several.

## Main definitions

* `Input.own`: The inputs the body of `next_update` waits for.
* `resultsOf`: What the calls return, among the outputs.
* `pollFut`: Polling a future of `next_update`.
* `Unfold`, `Unfold.pollNext`: The adaptor.
* `intoStream`, `stream`: The adaptor as a machine, driven by polls.
-/

namespace ShredStream

namespace Grpc

/-- What the body of `next_update` waits for, and the reading of the clock it
    starts with. The other inputs are calls made on the client, or the end of a
    future. -/
def Input.own : Input → Bool
  | .dropCall => false
  | .updateFilters _ _ => false
  | .close => false
  | _ => true

/-- What the calls return, among the outputs. -/
def resultsOf (os : List Output) : List Item :=
  os.filterMap (fun | .returned item => some item | _ => none)

/-- A boxed future of `next_update`, which owns its client. -/
abbrev UnfoldFut := Config

/-- What polling that future comes to. Ready, it gives the client back. -/
inductive Polled where
  | ready (item : Item) (client : GrpcClient)
  | pending (fut : UnfoldFut)

/-- Poll a future, `events` being what becomes ready meanwhile. The first poll
    starts the call, and a future that has returned is not polled again. -/
def pollFut (D : Deps) : UnfoldFut → List Input → Option (Polled × List Output)
  | fut, [] => if fut.call.isSome then some (.pending fut, []) else none
  | fut, i :: events =>
    if i.own then
      match step D fut i with
      | none => none
      | some (fut, os) => match (resultsOf os).head? with
        | some item => if events.isEmpty then some (.ready item fut.client, os) else none
        | none => (pollFut D fut events).map (fun r => (r.1, os ++ r.2))
    else none

inductive Poll (α : Type) where
  | ready (a : α)
  | pending
  deriving DecidableEq, Repr

/-- What the stream lets out: what the call in progress does, and what the
    polls return. -/
inductive StreamOutput where
  | inner (o : Output)
  | polled (p : Poll Item)

structure Unfold where
  fut : Option UnfoldFut

def Unfold.pollNext (D : Deps) (s : Unfold) (events : List Input) :
    Option (Unfold × List StreamOutput) :=
  match s.fut with
  -- Nothing runs any more, so nothing becomes ready.
  | none => if events.isEmpty then some (s, [.polled (.ready none)]) else none
  | some fut => match pollFut D fut events with
    | none => none
    | some (.ready item client, os) =>
      some (⟨if item.isSome then some ⟨client, none⟩ else none⟩,
        os.map .inner ++ [.polled (.ready item)])
    | some (.pending fut, os) => some (⟨some fut⟩, os.map .inner ++ [.polled .pending])

def intoStream (client : GrpcClient) : Unfold := ⟨some ⟨client, none⟩⟩

/-- The stream as a machine: one input is one poll, with what becomes ready
    during it. -/
def stream (D : Deps) : Machine Unfold (List Input) StreamOutput := ⟨Unfold.pollNext D⟩

end Grpc

end ShredStream
