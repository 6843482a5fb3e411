import ShredStream.Core.Udp
import ShredStream.Theory.Frame.Step

/-!
# One Step of the UDP Client

Everything either party can do in one step, said once. `Moves` has one
constructor for each transition, with the place it starts from; invariants
are proved by cases on it and never unfold the step function.

## Main definitions

* `Moves`: The transitions.

## Theorems

* `moves_of_step`: A step is one of the transitions.
* `run_moves`: A relation kept by every transition is kept by every run.
* `decode_cases`: What decoding leads to.
-/

namespace ShredStream

namespace Udp

open Codec UdpClient

/-- The transitions, one constructor for each. -/
inductive Moves (s : UdpClient) : Action → UdpClient × List Output → Prop where
  | check (h : s.thread = .check) :
      Moves s .thread ({ s with thread := if s.closed then .shutStore else .recv }, [])
  | timeout (h : s.thread = .recv) : Moves s (.recv .timeout) ({ s with thread := .check }, [])
  | failed (h : s.thread = .recv) : Moves s (.recv .failed) ({ s with thread := .shutStore }, [])
  | decode (now : SystemTime) (bytes : Bytes) (h : s.thread = .recv) :
      Moves s (.recv (.datagram now bytes)) (s.decode now bytes)
  | push (u : TransactionUpdate) (h : s.thread = .push u) : Moves s .thread (s.pushUpdate u)
  | count (h : s.thread = .count) : Moves s .thread (s.countDrop, [.counted])
  | notify (h : s.thread = .notify) :
      Moves s .thread ({ s with notify := s.notify.notifyOne, thread := .check }, [])
  | shutStore (h : s.thread = .shutStore) :
      Moves s .thread ({ s with closed := true, thread := .shutNotify }, [])
  | shutNotify (h : s.thread = .shutNotify) :
      Moves s .thread ({ s with notify := s.notify.notifyOne, thread := .done }, [])
  | call (c : Call) (h : s.consumer = .idle ∨ s.consumer = .pending) :
      Moves s (.call c)
        ({ s with consumer := match c with
            | .wait a => .pop a
            | .tryNextUpdate => .tryPop
            | .close => .closeStore }, [])
  | pop (a : Waiting) (h : s.consumer = .pop a) : Moves s .consumer (s.stepPop a)
  | release (h : s.consumer = .release) : Moves s .consumer (s.release, [])
  | checkClosed (a : Waiting) (h : s.consumer = .check a) :
      Moves s .consumer ({ s with consumer := if s.closed then .last a else .wait a }, [])
  | last (a : Waiting) (h : s.consumer = .last a) : Moves s .consumer (s.lastPop (.wait a))
  | wait (a : Waiting) (h : s.consumer = .wait a) : Moves s .consumer (s.stepWait a)
  | woken (w : Nat) (h : s.consumer = .parked w) (hw : w ∈ s.notify.notified) :
      Moves s .consumer
        ({ s with notify := (s.notify.poll w).1, consumer := .pop .nextUpdate }, [])
  | spurious (w : Nat) (h : s.consumer = .parked w) (hw : w ∉ s.notify.notified) :
      Moves s .consumer (s, [])
  | tryPop (h : s.consumer = .tryPop) : Moves s .consumer (s.lastPop .tryNextUpdate)
  | closeStore (h : s.consumer = .closeStore) :
      Moves s .consumer ({ s with closed := true, consumer := .join }, [])
  | join (h : s.consumer = .join) (hdone : s.thread = .done) :
      Moves s .consumer ({ s with consumer := .idle }, [.closed])
  | dropCall (w : Nat) (h : s.consumer = .parked w) :
      Moves s .dropCall ({ s with notify := s.notify.drop w, consumer := .idle }, [])

/-- A step is one of the transitions. -/
theorem moves_of_step (s : UdpClient) (a : Action) (r : UdpClient × List Output)
    (h : udp.step s a = some r) : Moves s a r := by
  cases a with
  | recv x =>
      simp only [udp, step, stepRecv] at h
      split at h
      · cases x with
        | datagram now bytes =>
            cases h
            exact .decode now bytes ‹_›
        | timeout =>
            cases h
            exact .timeout ‹_›
        | failed =>
            cases h
            exact .failed ‹_›
      · cases h
  | thread =>
      simp only [udp, step, stepThread] at h
      split at h <;> cases h
      · exact .check ‹_›
      · exact .push _ ‹_›
      · exact .count ‹_›
      · exact .notify ‹_›
      · exact .shutStore ‹_›
      · exact .shutNotify ‹_›
  | call c =>
      simp only [udp, step, stepCall] at h
      split at h
      · cases h
        exact .call c ‹_›
      · cases h
  | consumer =>
      simp only [udp, step, stepConsumer] at h
      split at h
      · cases h
      · cases h
      · cases h
        exact .pop _ ‹_›
      · cases h
        exact .release ‹_›
      · cases h
        exact .checkClosed _ ‹_›
      · cases h
        exact .last _ ‹_›
      · cases h
        exact .wait _ ‹_›
      · rename_i w hc
        by_cases hw : w ∈ s.notify.notified
        · have hp : s.notify.poll w
              = ({ s.notify with notified := s.notify.notified.filter (· ≠ w) }, true) := by
            rw [Notify.poll, if_pos hw]
          have hm := Moves.woken (s := s) w hc hw
          rw [hp] at h hm
          cases h
          exact hm
        · rw [Notify.poll, if_neg hw] at h
          cases h
          exact .spurious w hc hw
      · cases h
        exact .tryPop ‹_›
      · cases h
        exact .closeStore ‹_›
      · split at h
        · cases h
          exact .join ‹_› ‹_›
        · cases h
  | dropCall =>
      simp only [udp, step, stepDrop] at h
      split at h
      · cases h
        exact .dropCall _ ‹_›
      · cases h

/-- A relation between the inputs consumed, the client reached and the outputs
    emitted, kept by every transition, is kept by every run. -/
theorem run_moves (I : List Action → UdpClient → List Output → Prop)
    (hmove : ∀ before u os a r, I before u os → Moves u a r → I (before ++ [a]) r.1 (os ++ r.2))
    (s t : UdpClient) (inputs : List Action) (os : List Output) (h0 : I [] s [])
    (h : udp.run s inputs = some (t, os)) : I inputs t os :=
  Machine.run_invariant udp I
    (fun before u os a u' new hu hstep =>
      hmove before u os a (u', new) hu (moves_of_step u a (u', new) hstep))
    inputs [] s t [] os h0 h

/-- What decoding leads to: an update in the thread's hand, or the next round
    of its loop. -/
theorem decode_cases (s : UdpClient) (now : SystemTime) (bytes : Bytes) :
    (∃ u, (s.decoder.push now bytes).result = .update u ∧ s.decode now bytes
      = ({ s with decoder := (s.decoder.push now bytes).decoder, thread := .push u },
        (s.decoder.push now bytes).notices.map Output.notice ++ [.produced u])) ∨
    (StreamDecoder.produced (s.decoder.push now bytes).result = 0 ∧ s.decode now bytes
      = ({ s with decoder := (s.decoder.push now bytes).decoder, thread := .check },
        (s.decoder.push now bytes).notices.map Output.notice)) := by
  simp only [decode]
  cases hres : (s.decoder.push now bytes).result with
  | update u => exact Or.inl ⟨u, rfl, rfl⟩
  | skipped | error e => exact Or.inr ⟨rfl, rfl⟩

end Udp

end ShredStream
