import Mathlib.Data.List.Infix
import ShredStream.Lib.Backlog
import ShredStream.Theory.Udp.Feed

/-!
# Slow Consumers

What a consumer of a UDP client loses by being slow. The receive thread never
waits for it: when the queue is full, the oldest update goes. So the only thing
that decides what is lost is how far the consumer is behind, and it is lost
only while the consumer is further behind than ever before. The number of lost
updates is the largest excess over the capacity, at any moment of the run; it
is what the counter of dropped updates says, as soon as the thread has counted.

The queue has room for `queue_capacity` updates, and one at least. A consumer
that is never further behind receives everything. And however slow it is, what
it receives is new: fewer updates than the queue can hold were pushed behind
it.

## Main definitions

* `excessOf`: By how much a consumer is further behind than the queue can hold.

## Theorems

* `prefix_flatMap`: What is seen of a part of a run.
* `udp_backlog`: What a consumer loses in every run.
* `evictingRun_backlog`: A consumer that is behind by two updates.
-/

namespace ShredStream

namespace Udp

open Codec UdpClient BoundedFifo Feed

/-- How many updates more than the queue can hold were pushed and not received,
    counting those that were evicted. -/
def excessOf (capacity : Nat) (os : List Output) : Nat :=
  (pushedOf os).length - (receivedOf os).length - capacity

/-- What is seen of an output list is what the output list reports. -/
theorem seen_reports (os : List Output) : putOf (os.flatMap seen) = pushedOf os ∧
    gotOf (os.flatMap seen) = receivedOf os ∧ lostOf (os.flatMap seen) = evictedOf os := by
  induction os with
  | nil => exact ⟨rfl, rfl, rfl⟩
  | cons o os ih =>
      rw [List.flatMap_cons, putOf_append, gotOf_append, lostOf_append, ih.1, ih.2.1, ih.2.2]
      cases o with
      | nothing c => cases c <;> exact ⟨rfl, rfl, rfl⟩
      | produced u | pushed u | evicted u | received u | counted | notice n | pending | closed =>
          exact ⟨rfl, rfl, rfl⟩

theorem length_seen (o : Output) : (seen o).length ≤ 1 := by
  cases o with
  | nothing c => cases c <;> exact Nat.le_refl 1
  | pushed u | evicted u | received u => exact Nat.le_refl 1
  | produced u | counted | notice n | pending | closed => exact Nat.zero_le 1

/-- When nothing shows more than one thing, whatever is seen first is what is
    seen of a first part. -/
theorem prefix_flatMap {β γ : Type} (see : β → List γ) (hone : ∀ b, (see b).length ≤ 1)
    (bs : List β) : ∀ cs, cs <+: bs.flatMap see →
      ∃ before, before <+: bs ∧ cs = before.flatMap see := by
  induction bs with
  | nil =>
      intro cs h
      exact ⟨[], List.prefix_refl [], List.prefix_nil.mp h⟩
  | cons b bs ih =>
      intro cs h
      rw [List.flatMap_cons] at h
      have hb := hone b
      rcases hsee : see b with _ | ⟨c, _ | ⟨c', more⟩⟩ <;> rw [hsee] at h hb
      · rcases ih cs h with ⟨before, hbefore, rfl⟩
        refine ⟨b :: before, List.cons_prefix_cons.mpr ⟨rfl, hbefore⟩, ?_⟩
        rw [List.flatMap_cons, hsee, List.nil_append]
      · rw [List.singleton_append] at h
        rcases List.prefix_cons_iff.mp h with rfl | ⟨rest, rfl, hrest⟩
        · exact ⟨[], List.nil_prefix, rfl⟩
        · rcases ih rest hrest with ⟨before, hbefore, rfl⟩
          refine ⟨b :: before, List.cons_prefix_cons.mpr ⟨rfl, hbefore⟩, ?_⟩
          rw [List.flatMap_cons, hsee, List.singleton_append]
      · simp only [List.length_cons] at hb
        omega

theorem excess_seen (capacity : Nat) (os : List Output) :
    excess capacity (os.flatMap seen) = excessOf capacity os := by
  rw [excess, (seen_reports os).1, (seen_reports os).2.1, excessOf]

/-- What a consumer loses, in every run: as many updates as it was ever behind
    in excess of the capacity, so none if it was never behind by more. The
    counter says how many. What it receives is among the last that were pushed,
    as many as the queue can hold. -/
theorem udp_backlog (queueCapacity : Nat) (inputs : List Action) (t : UdpClient)
    (os : List Output) (h : udp.run (bind queueCapacity) inputs = some (t, os)) :
    let capacity := max queueCapacity 1
    IsGreatest {n | ∃ before, before <+: os ∧ n = excessOf capacity before}
      (evictedOf os).length ∧
    (evictedOf os = [] ↔ ∀ before, before <+: os →
      (pushedOf before).length ≤ (receivedOf before).length + capacity) ∧
    t.decoder.stats.queueDropped = UInt64.ofNat ((evictedOf os).length - t.thread.uncounted) ∧
    ∀ before u after, os = before ++ .received u :: after → ∃ older newer,
      pushedOf before = older ++ u :: newer ∧ newer.length < capacity := by
  intro capacity
  have hbacklog : Backlog capacity (os.flatMap seen) :=
    udp_simulates.shows (Backlog capacity) _ t (new capacity)
      (fun ops f es hrun => backlog_run capacity (Nat.le_max_right queueCapacity 1) ops f es hrun)
      ⟨ending_bind queueCapacity, rfl⟩ inputs os h
  have hgreatest : IsGreatest {n | ∃ before, before <+: os ∧ n = excessOf capacity before}
      (evictedOf os).length := by
    rw [← (seen_reports os).2.2]
    refine ⟨?_, ?_⟩
    · rcases hbacklog.lost.1 with ⟨es, hprefix, heq⟩
      rcases prefix_flatMap seen length_seen os es hprefix with ⟨before, hbefore, rfl⟩
      exact ⟨before, hbefore, heq.trans (excess_seen capacity before)⟩
    · rintro n ⟨before, hbefore, rfl⟩
      exact hbacklog.lost.2 ⟨_, hbefore.flatMap seen, (excess_seen capacity before).symm⟩
  have haccount := account_run queueCapacity inputs t os h
  refine ⟨hgreatest, ⟨fun hnone before hbefore => ?_, fun hnever => ?_⟩, ?_, ?_⟩
  · have hle := hgreatest.2 ⟨before, hbefore, rfl⟩
    rw [hnone, excessOf, List.length_nil] at hle
    omega
  · rcases hgreatest.1 with ⟨before, hbefore, heq⟩
    have hle := hnever before hbefore
    rw [excessOf] at heq
    exact List.length_eq_zero_iff.mp (by omega)
  · have hdropped := haccount.dropped
    rw [haccount.queueDropped]
    congr 1
    omega
  · intro before u after hsplit
    rw [← (seen_reports before).1]
    refine hbacklog.fresh (before.flatMap seen) u (after.flatMap seen) ?_
    rw [hsplit, List.flatMap_append, List.flatMap_cons]
    rfl

/-- With room for one update, a consumer that is behind by two loses one, which
    is not counted yet. -/
theorem evictingRun_backlog : ∃ t os, udp.run (bind 0) evictingRun = some (t, os) ∧
    IsGreatest {n | ∃ before, before <+: os ∧ n = excessOf 1 before} 1 ∧
    t.decoder.stats.queueDropped = 0 := by
  have hrun : ∃ t os, udp.run (bind 0) evictingRun = some (t, os) ∧ (evictedOf os).length = 1 ∧
      t.thread.uncounted = 1 := ⟨_, _, rfl, rfl, rfl⟩
  rcases hrun with ⟨t, os, hrun, hone, huncounted⟩
  rcases udp_backlog 0 evictingRun t os hrun with ⟨hgreatest, _, hdropped, _⟩
  rw [hone] at hgreatest hdropped
  rw [huncounted] at hdropped
  exact ⟨t, os, hrun, hgreatest, hdropped⟩

end Udp

end ShredStream
