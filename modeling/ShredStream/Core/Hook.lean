import ShredStream.Core.Grpc
import ShredStream.Core.Socket
import ShredStream.Lib.Callback

/-!
# The Notice Hook

Every client has a `NoticeHook`, which it shares with its decoder or its
receive thread, and which is empty until the user calls `on_notice`. Firing a
notice calls the callback that is there at that moment.

The machines of the two clients output what they fire. Here they are run with
the hook in place: the user may call `on_notice` between any two steps, and
what comes out is which callback heard which notice.

A callback is code of the user's and may panic. That of a UDP client runs on
the receive thread, inside of `push`, which has done all it does to the decoder
and to the counters before it fires. The thread then unwinds: whatever it was
about to do is left, and its shutdown guard runs, as it does when the loop is
left.

## Main definitions

* `NoticeHook`: The slot for the callback.
* `Udp.report`, `Grpc.report`: The notice an output fires.
* `Udp.noticed`, `Grpc.noticed`: The clients with their hooks.
* `Udp.panicking`: The UDP client with callbacks that may panic.
-/

namespace ShredStream

/-- At most one callback, of whatever type stands for callbacks. -/
abbrev NoticeHook (κ : Type) := Slot κ

/-- The hook of a client that was just made. -/
def NoticeHook.default {κ : Type} : NoticeHook κ := none

namespace Udp

/-- The notice an output fires. -/
def report : Output → Option Notice
  | .notice n => some n
  | _ => none

/-- The UDP client with its hook. -/
def noticed (κ : Type) :
    Machine (UdpClient × NoticeHook κ) (Machine.Hooked Action κ) (κ × Notice) :=
  Machine.hooked udp report

/-- A notice among the outputs is heard by a callback that panics on it. -/
def unwinds {κ : Type} (panics : κ → Notice → Bool) (hook : NoticeHook κ) (os : List Output) :
    Bool :=
  (os.filterMap report).any (fun n => hook.any (fun k => panics k n))

/-- The UDP client with callbacks that panic on some notices. -/
def panicking {κ : Type} (panics : κ → Notice → Bool) :
    Machine (UdpClient × NoticeHook κ) (Machine.Hooked Action κ) Output where
  step s
    | .set k => some ((s.1, s.2.set k), [])
    | .own a => match udp.step s.1 a with
      | none => none
      -- The guard was made first, so it is dropped last.
      | some (t, os) =>
        some ((if unwinds panics s.2 os then { t with thread := .shutStore } else t, s.2), os)

end Udp

namespace Grpc

/-- The notice an output fires. -/
def report : Output → Option Notice
  | .notice n => some n
  | _ => none

/-- The gRPC client with its hook. -/
def noticed (D : Deps) (κ : Type) :
    Machine (Config × NoticeHook κ) (Machine.Hooked Input κ) (κ × Notice) :=
  Machine.hooked (grpc D) report

end Grpc

end ShredStream
