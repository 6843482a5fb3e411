import ShredStream.Lib.Feed
import ShredStream.Lib.Simulation
import ShredStream.Theory.Udp.Ending

/-!
# The UDP Client Is a Feed

Two threads, a ring, a flag and a wake-up primitive, against a line with a
source at one end and a user at the other. The line is the ring. The source is
over once the thread has left its loop and its guard has set the flag, and not
yet when `close` has set it: the thread may have an update in its hand.

Each step of either party is one operation on the line or none, at the moment
of the step. So a call of the consumer takes effect at one moment between its
start and its return, whatever the thread does meanwhile.

A feed never fails here. A socket error ends it as a close does.

## Main definitions

* `seen`: What of an output a user of the feed sees.
* `phaseOf`: How the source stands.
* `mirror`: The feed that stands as the client does.

## Theorems

* `mirror_step`: Every step is an operation of the feed, or none.
* `udp_simulates`: The client simulates the feed.
* `udp_feed`: Every run is a run of the feed, and keeps its contract.
-/

namespace ShredStream

namespace Udp

open Codec UdpClient BoundedFifo Feed

/-- What of an output a user of the feed sees. -/
def seen : Output → List (Event TransactionUpdate Empty)
  | .pushed u => [.put u]
  | .evicted u => [.lost u]
  | .received u => [.got u]
  | .nothing (.wait _) => [.ended]
  | .nothing _ => [.nothing]
  | _ => []

/-- How the source stands, by the place of the thread. -/
def phaseOf : ThreadPc → Phase Empty
  | .shutNotify | .done => .ended
  | _ => .flowing

/-- The feed that stands as the client does. -/
def mirror (s : UdpClient) : Feed.State TransactionUpdate Empty where
  capacity := s.capacity
  line := s.queue
  phase := phaseOf s.thread

theorem phaseOf_gone (pc : ThreadPc) (h : pc.Gone) : phaseOf pc = .ended := by
  cases pc with
  | shutNotify | done => rfl
  | check | recv | push u | count | notify | shutStore => exact h.elim

/-- The feed does nothing. -/
theorem mirror_silent (s s' : UdpClient) (os : List Output) (hs' : mirror s' = mirror s)
    (hos : os.flatMap seen = []) :
    ∃ ops, feed.run (mirror s) ops = some (mirror s', os.flatMap seen) := by
  rw [hs', hos]
  exact ⟨[], rfl⟩

/-- The feed does one thing. -/
theorem mirror_one (s s' : UdpClient) (os : List Output) (op : Op TransactionUpdate Empty)
    (h : feed.step (mirror s) op = some (mirror s', os.flatMap seen)) :
    ∃ ops, feed.run (mirror s) ops = some (mirror s', os.flatMap seen) :=
  ⟨[op], Machine.run_singleton feed _ _ op _ h⟩

theorem seen_notices (ns : List Notice) : (ns.map Output.notice).flatMap seen = [] := by
  induction ns with
  | nil => rfl
  | cons n ns ih => exact ih

/-- Decoding is not seen. -/
theorem mirror_decode (s : UdpClient) (now : SystemTime) (bytes : Bytes) (h : s.thread = .recv) :
    ∃ ops, feed.run (mirror s) ops
      = some (mirror (s.decode now bytes).1, (s.decode now bytes).2.flatMap seen) := by
  have hflowing : mirror s = ⟨s.capacity, s.queue, .flowing⟩ := by
    rw [mirror, h]
    rfl
  rcases decode_cases s now bytes with ⟨u, _, hd⟩ | ⟨_, hd⟩ <;> rw [hd]
  · refine mirror_silent s _ _ hflowing.symm ?_
    rw [List.flatMap_append, seen_notices]
    rfl
  · exact mirror_silent s _ _ hflowing.symm (seen_notices _)

/-- A push puts into the line. -/
theorem mirror_push (s : UdpClient) (u : TransactionUpdate) (h : s.thread = .push u) :
    ∃ ops, feed.run (mirror s) ops
      = some (mirror (s.pushUpdate u).1, (s.pushUpdate u).2.flatMap seen) := by
  refine mirror_one s _ _ (.put u) ?_
  simp only [mirror, h, phaseOf, feed, pushUpdate]
  rcases forcePush s.capacity s.queue u with ⟨queue, _ | old⟩ <;> rfl

/-- A pop that finds something takes it; the first pop of a call that finds
    nothing says nothing yet. -/
theorem mirror_pop (s : UdpClient) (a : Waiting) :
    ∃ ops, feed.run (mirror s) ops
      = some (mirror (s.stepPop a).1, (s.stepPop a).2.flatMap seen) := by
  unfold stepPop
  rcases hq : s.queue with _ | ⟨u, rest⟩
  · refine mirror_silent s _ _ ?_ rfl
    rw [mirror, mirror, hq]
    rfl
  · refine mirror_one s _ _ .take ?_
    simp only [mirror, hq, feed, pop]
    cases a <;> rfl

/-- The last pop of a call takes something, or the call is told that the line
    is empty: for good, if it is a call that waits. -/
theorem mirror_lastPop (s : UdpClient) (c : Call)
    (h : ∀ a, c = .wait a → phaseOf s.thread = .ended) :
    ∃ ops, feed.run (mirror s) ops
      = some (mirror (s.lastPop c).1, (s.lastPop c).2.flatMap seen) := by
  unfold lastPop
  rcases hq : s.queue with _ | ⟨u, rest⟩
  · have hempty : mirror s = ⟨s.capacity, [], phaseOf s.thread⟩ := by rw [mirror, hq]
    rcases c with a | _ | _
    · refine mirror_one s _ _ .ask ?_
      rw [hempty, h a rfl]
      simp only [feed, pop, mirror, h a rfl]
      rfl
    all_goals
      refine mirror_one s _ _ .look ?_
      rw [hempty]
      simp only [feed, pop, mirror]
      rfl
  · refine mirror_one s _ _ .take ?_
    simp only [mirror, hq, feed, pop]
    rfl

/-- Every step is an operation of the feed, or none. -/
theorem mirror_step (s : UdpClient) (a : Action) (r : UdpClient × List Output) (h : Ending s)
    (hm : Moves s a r) :
    ∃ ops, feed.run (mirror s) ops = some (mirror r.1, r.2.flatMap seen) := by
  cases hm with
  | check ht =>
      refine mirror_silent s _ _ ?_ rfl
      rw [mirror, mirror, ht]
      cases s.closed <;> rfl
  | timeout ht | failed ht | count ht | notify ht =>
      refine mirror_silent s _ _ ?_ rfl
      rw [mirror, mirror, ht]
      rfl
  | decode now bytes ht => exact mirror_decode s now bytes ht
  | push u ht => exact mirror_push s u ht
  -- The guard has set the flag: nothing more is put.
  | shutStore ht => exact mirror_one s _ _ .finish rfl
  | shutNotify ht =>
      refine mirror_silent s _ _ ?_ rfl
      rw [mirror, mirror, ht]
      rfl
  | pop a hc => exact mirror_pop s a
  -- A call at its last pop runs beside no push.
  | last a hc => exact mirror_lastPop s _ (fun _ _ => phaseOf_gone _ (h.last a hc))
  | tryPop hc => exact mirror_lastPop s _ (fun _ hw => by cases hw)
  | wait a hc =>
      refine mirror_silent s _ _ ?_ ?_ <;>
      · unfold stepWait
        repeat' split
        all_goals rfl
  | call c hc | release hc | checkClosed a hc | woken w hc hw | spurious w hc hw | closeStore hc
  | join hc hdone | dropCall w hc => exact mirror_silent s _ _ rfl rfl

/-- The client simulates the feed. -/
theorem udp_simulates : Machine.Simulates udp feed seen (fun s f => Ending s ∧ f = mirror s) := by
  rintro s f a s' os ⟨hs, rfl⟩ hstep
  have hm := moves_of_step s a (s', os) hstep
  rcases mirror_step s a (s', os) hs hm with ⟨ops, hrun⟩
  exact ⟨ops, mirror s', hrun, ending_step s a (s', os) hs hm, rfl⟩

/-- Every run of the client, whatever the interleaving, is a run of the feed:
    the same is put, lost, taken and told in the same order, and what the feed
    holds at the end is what the client has queued. So the user may rely on
    the contract of a feed. -/
theorem udp_feed (queueCapacity : Nat) (inputs : List Action) (t : UdpClient) (os : List Output)
    (h : udp.run (bind queueCapacity) inputs = some (t, os)) :
    (∃ ops, feed.run (new (max queueCapacity 1)) ops = some (mirror t, os.flatMap seen)) ∧
      Contract (os.flatMap seen) := by
  have h0 : mirror (bind queueCapacity) = new (max queueCapacity 1) := rfl
  rcases udp_simulates.run inputs _ t _ os ⟨ending_bind queueCapacity, rfl⟩ h with
    ⟨ops, f, hrun, _, rfl⟩
  rw [h0] at hrun
  exact ⟨⟨ops, hrun⟩, contract_run _ ops _ _ hrun⟩

/-- Of the two updates of that run one is lost and one is got. -/
theorem evictingRun_feed : ∃ t os, udp.run (bind 0) evictingRun = some (t, os) ∧
    (lostOf (os.flatMap seen)).length = 1 ∧ (gotOf (os.flatMap seen)).length = 1 ∧
    Contract (os.flatMap seen) :=
  ⟨_, _, rfl, rfl, rfl, (udp_feed 0 evictingRun _ _ rfl).2⟩

end Udp

end ShredStream
