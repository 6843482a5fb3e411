import ShredStream.Theory.Udp.Step

/-!
# Nothing Is Lost on the Way

The account of the updates that pass through the UDP client, kept over every
interleaving of the receive thread and the consumer.

An update is produced by the decoder, pushed into the queue, and then either
received by the consumer or evicted by a later push; an eviction is counted
one step after it happened. The thread holds at most one update that it has
not pushed, or one eviction that it has not counted, and `inFlight` is that.

Both sides of the queue keep its ledger (`Lib/BoundedFifo.lean`), whichever
of the two moves, so the account needs no assumption about their order.

## Main definitions

* `producedOf`, `pushedOf`, `evictedOf`, `countedOf`, `receivedOf`: What an
  output list reports.
* `inFlight`: The update whose push or drop accounting is not finished.
* `Account`: The invariant.

## Theorems

* `account_step`: A step keeps the account.
* `udp_account`: What holds of every run.
-/

namespace ShredStream

namespace Udp

open Codec UdpClient BoundedFifo

def producedOf (os : List Output) : List TransactionUpdate :=
  os.filterMap (fun | .produced u => some u | _ => none)

def pushedOf (os : List Output) : List TransactionUpdate :=
  os.filterMap (fun | .pushed u => some u | _ => none)

def evictedOf (os : List Output) : List TransactionUpdate :=
  os.filterMap (fun | .evicted u => some u | _ => none)

def countedOf (os : List Output) : Nat := os.count .counted

def receivedOf (os : List Output) : List TransactionUpdate :=
  os.filterMap (fun | .received u => some u | _ => none)

/-- The update the thread has decoded and not pushed. -/
def ThreadPc.inHand : ThreadPc → List TransactionUpdate
  | .push u => [u]
  | _ => []

/-- The eviction the thread has not counted. -/
def ThreadPc.uncounted : ThreadPc → Nat
  | .count => 1
  | _ => 0

/-- The update whose push or whose drop accounting is not finished. -/
def ThreadPc.inFlight (pc : ThreadPc) : Nat := pc.inHand.length + pc.uncounted

/-- Everything produced is accounted for, and the counters say so. -/
structure Account (s : UdpClient) (os : List Output) : Prop where
  produced : producedOf os = pushedOf os ++ s.thread.inHand
  ledger : Ledger (pushedOf os) (receivedOf os) (evictedOf os) s.queue
  dropped : (evictedOf os).length = countedOf os + s.thread.uncounted
  room : 1 ≤ s.capacity
  bound : s.queue.length ≤ s.capacity
  messages : s.decoder.stats.messages = UInt64.ofNat (producedOf os).length
  queueDropped : s.decoder.stats.queueDropped = UInt64.ofNat (countedOf os)

/-- What an output list reports. -/
def Reports (os : List Output) (produced pushed evicted : List TransactionUpdate) (counted : Nat)
    (received : List TransactionUpdate) : Prop :=
  producedOf os = produced ∧ pushedOf os = pushed ∧ evictedOf os = evicted ∧
    countedOf os = counted ∧ receivedOf os = received

@[simp] theorem producedOf_append (os new : List Output) :
    producedOf (os ++ new) = producedOf os ++ producedOf new := List.filterMap_append

@[simp] theorem pushedOf_append (os new : List Output) :
    pushedOf (os ++ new) = pushedOf os ++ pushedOf new := List.filterMap_append

@[simp] theorem evictedOf_append (os new : List Output) :
    evictedOf (os ++ new) = evictedOf os ++ evictedOf new := List.filterMap_append

@[simp] theorem countedOf_append (os new : List Output) :
    countedOf (os ++ new) = countedOf os + countedOf new := List.count_append

@[simp] theorem receivedOf_append (os new : List Output) :
    receivedOf (os ++ new) = receivedOf os ++ receivedOf new := List.filterMap_append

theorem inFlight_le_one (pc : ThreadPc) : pc.inFlight ≤ 1 := by
  cases pc with
  | push u => exact Nat.le_refl 1
  | count => exact Nat.le_refl 1
  | check | recv | notify | shutStore | shutNotify | done => exact Nat.zero_le 1

theorem reports_nil : Reports [] [] [] [] 0 [] := ⟨rfl, rfl, rfl, rfl, rfl⟩

theorem reports_notices (ns : List Notice) : Reports (ns.map Output.notice) [] [] [] 0 [] := by
  induction ns with
  | nil => exact reports_nil
  | cons n ns ih =>
      rcases ih with ⟨hp, hu, he, hc, hr⟩
      refine ⟨hp, hu, he, ?_, hr⟩
      rw [List.map_cons, countedOf, List.count_cons_of_ne (by simp only [ne_eq, reduceCtorEq,
        not_false_eq_true])]
      exact hc

/-- The account after a step, from what the step reports and what it does to
    the queue and to the thread's hand. -/
theorem account_add (s s' : UdpClient) (os new : List Output) (h : Account s os)
    (produced pushed evicted received : List TransactionUpdate) (counted : Nat)
    (hnew : Reports new produced pushed evicted counted received)
    (hhand : s.thread.inHand ++ produced = pushed ++ s'.thread.inHand)
    (hledger : Ledger (pushedOf os ++ pushed) (receivedOf os ++ received)
      (evictedOf os ++ evicted) s'.queue)
    (huncounted : s.thread.uncounted + evicted.length = counted + s'.thread.uncounted)
    (hcapacity : s'.capacity = s.capacity) (hbound : s'.queue.length ≤ s.capacity)
    (hmessages : s'.decoder.stats.messages
      = s.decoder.stats.messages + UInt64.ofNat produced.length)
    (hdropped : s'.decoder.stats.queueDropped
      = s.decoder.stats.queueDropped + UInt64.ofNat counted) :
    Account s' (os ++ new) := by
  -- One goal for each field of the account.
  rcases hnew with ⟨rfl, rfl, rfl, rfl, rfl⟩
  refine ⟨?_, ?_, ?_, ?_, ?_, ?_, ?_⟩
  · rw [producedOf_append, pushedOf_append, h.produced, List.append_assoc, hhand,
      List.append_assoc]
  · simpa only [pushedOf_append, receivedOf_append, evictedOf_append] using hledger
  · rw [evictedOf_append, countedOf_append, List.length_append, h.dropped]
    omega
  · rw [hcapacity]
    exact h.room
  · rw [hcapacity]
    exact hbound
  · rw [hmessages, h.messages, producedOf_append, List.length_append, UInt64.ofNat_add]
  · rw [hdropped, h.queueDropped, countedOf_append, UInt64.ofNat_add]

/-- A step that leaves the queue, the counters and what the thread holds alone
    keeps the account. -/
theorem account_same (s s' : UdpClient) (os new : List Output) (h : Account s os)
    (hqueue : s'.queue = s.queue) (hcapacity : s'.capacity = s.capacity)
    (hdecoder : s'.decoder = s.decoder) (hhand : s'.thread.inHand = s.thread.inHand)
    (huncounted : s'.thread.uncounted = s.thread.uncounted)
    (hnew : Reports new [] [] [] 0 []) : Account s' (os ++ new) := by
  refine account_add s s' os new h _ _ _ _ _ hnew ?_ ?_ ?_ hcapacity ?_ ?_ ?_
  · rw [hhand, List.append_nil, List.nil_append]
  · simpa only [List.append_nil, hqueue] using h.ledger
  · rw [huncounted, List.length_nil, Nat.zero_add, Nat.add_zero]
  · rw [hqueue]
    exact h.bound
  · rw [hdecoder]
    exact (UInt64.add_zero _).symm
  · rw [hdecoder]
    exact (UInt64.add_zero _).symm

/-- A pop by the consumer keeps the account. -/
theorem account_pop (s s' : UdpClient) (os new : List Output) (h : Account s os)
    (hqueue : s'.queue = (pop s.queue).1) (hcapacity : s'.capacity = s.capacity)
    (hdecoder : s'.decoder = s.decoder) (hthread : s'.thread = s.thread)
    (hnew : Reports new [] [] [] 0 (pop s.queue).2.toList) : Account s' (os ++ new) := by
  refine account_add s s' os new h _ _ _ _ _ hnew ?_ ?_ ?_ hcapacity ?_ ?_ ?_
  · rw [hthread, List.append_nil, List.nil_append]
  · simp only [List.append_nil, hqueue]
    exact ledger_pop _ _ _ _ h.ledger
  · rw [hthread, List.length_nil, Nat.zero_add, Nat.add_zero]
  · rw [hqueue]
    exact Nat.le_trans (length_pop s.queue) h.bound
  · rw [hdecoder]
    exact (UInt64.add_zero _).symm
  · rw [hdecoder]
    exact (UInt64.add_zero _).symm

/-- Decoding keeps the account: an update that is produced is counted and in
    the thread's hand. -/
theorem account_decode (s : UdpClient) (os : List Output) (now : SystemTime) (bytes : Bytes)
    (h : Account s os) (hrecv : s.thread = .recv) :
    Account (s.decode now bytes).1 (os ++ (s.decode now bytes).2) := by
  have hmsg := StreamDecoder.push_messages s.decoder now bytes
  have hnotices := reports_notices (s.decoder.push now bytes).notices
  have hnone : (s.decoder.push now bytes).decoder.stats.queueDropped
      = s.decoder.stats.queueDropped + UInt64.ofNat 0 := by
    rw [hmsg.2]
    exact (UInt64.add_zero _).symm
  rcases decode_cases s now bytes with ⟨u, hres, hd⟩ | ⟨hres, hd⟩
  · -- The update is produced, counted as a message, and not pushed yet.
    have hnew : Reports ((s.decoder.push now bytes).notices.map Output.notice ++ [.produced u])
        [u] [] [] 0 [] := by
      rcases hnotices with ⟨hp, hu, he, hc, hr⟩
      refine ⟨?_, ?_, ?_, ?_, ?_⟩
      · rw [producedOf_append, hp]
        rfl
      · rw [pushedOf_append, hu]
        rfl
      · rw [evictedOf_append, he]
        rfl
      · rw [countedOf_append, hc]
        rfl
      · rw [receivedOf_append, hr]
        rfl
    rw [hd]
    rw [hres] at hmsg
    refine account_add s _ os _ h _ _ _ _ _ hnew ?_ ?_ ?_ rfl h.bound hmsg.1 hnone
    · rw [hrecv]
      rfl
    · simpa only [List.append_nil] using h.ledger
    · rw [hrecv]
      rfl
  · -- Nothing is produced, and no message is counted.
    rw [hd]
    rw [hres] at hmsg
    refine account_add s _ os _ h _ _ _ _ _ hnotices ?_ ?_ ?_ rfl h.bound hmsg.1 hnone
    · rw [hrecv]
      rfl
    · simpa only [List.append_nil] using h.ledger
    · rw [hrecv]
      rfl

/-- Pushing keeps the account: the update leaves the thread's hand for the
    queue, and an evicted one remains to be counted. -/
theorem account_push (s : UdpClient) (os : List Output) (u : TransactionUpdate)
    (h : Account s os) (hpush : s.thread = .push u) :
    Account (s.pushUpdate u).1 (os ++ (s.pushUpdate u).2) := by
  -- The ledger and the bound of the queue, whether or not it was full.
  have hled := ledger_forcePush s.capacity _ _ _ _ u h.ledger
  have hlen := length_forcePush s.capacity s.queue u h.room h.bound
  unfold pushUpdate
  rcases hf : forcePush s.capacity s.queue u with ⟨queue, _ | old⟩
  · -- There was room.
    rw [hf] at hled hlen
    refine account_add s _ os _ h [] [u] [] [] 0 ⟨rfl, rfl, rfl, rfl, rfl⟩ ?_ ?_ ?_ rfl hlen
      (UInt64.add_zero _).symm (UInt64.add_zero _).symm
    · rw [hpush]
      rfl
    · rw [List.append_nil]
      exact hled
    · rw [hpush]
      rfl
  · -- The oldest made way and is not counted yet.
    rw [hf] at hled hlen
    refine account_add s _ os _ h [] [u] [old] [] 0 ⟨rfl, rfl, rfl, rfl, rfl⟩ ?_ ?_ ?_ rfl hlen
      (UInt64.add_zero _).symm (UInt64.add_zero _).symm
    · rw [hpush]
      rfl
    · rw [List.append_nil]
      exact hled
    · rw [hpush]
      rfl

/-- Counting an eviction keeps the account. -/
theorem account_count (s : UdpClient) (os : List Output) (h : Account s os)
    (hcount : s.thread = .count) : Account s.countDrop (os ++ [.counted]) := by
  refine account_add s _ os _ h [] [] [] [] 1 ⟨rfl, rfl, rfl, rfl, rfl⟩ ?_ ?_ ?_ rfl h.bound
    (UInt64.add_zero _).symm rfl
  · rw [hcount]
    rfl
  · simp only [List.append_nil]
    exact h.ledger
  · rw [hcount]
    rfl

/-- A pop that finds nothing leaves the account as it is; one that finds an
    update hands it out. -/
theorem account_lastPop (s : UdpClient) (os : List Output) (c : Call) (h : Account s os) :
    Account (s.lastPop c).1 (os ++ (s.lastPop c).2) := by
  unfold lastPop
  rcases hpop : pop s.queue with ⟨queue, _ | u⟩
  · exact account_same s _ os _ h rfl rfl rfl rfl rfl ⟨rfl, rfl, rfl, rfl, rfl⟩
  · exact account_pop s _ os _ h (by rw [hpop]) rfl rfl rfl
      (by rw [hpop]; exact ⟨rfl, rfl, rfl, rfl, rfl⟩)

theorem account_stepPop (s : UdpClient) (os : List Output) (a : Waiting) (h : Account s os) :
    Account (s.stepPop a).1 (os ++ (s.stepPop a).2) := by
  unfold stepPop
  rcases hpop : pop s.queue with ⟨queue, _ | u⟩
  · exact account_same s _ os _ h rfl rfl rfl rfl rfl reports_nil
  · cases a <;>
      exact account_pop s _ os _ h (by rw [hpop]) rfl rfl rfl
        (by rw [hpop]; exact ⟨rfl, rfl, rfl, rfl, rfl⟩)

theorem account_stepWait (s : UdpClient) (os : List Output) (a : Waiting) (h : Account s os) :
    Account (s.stepWait a).1 (os ++ (s.stepWait a).2) := by
  unfold stepWait
  repeat' split
  all_goals exact account_same s _ os _ h rfl rfl rfl rfl rfl ⟨rfl, rfl, rfl, rfl, rfl⟩

/-- A step keeps the account. Only decoding, pushing, counting and popping
    touch what it is about. -/
theorem account_step (s : UdpClient) (a : Action) (r : UdpClient × List Output)
    (os : List Output) (h : Account s os) (hm : Moves s a r) : Account r.1 (os ++ r.2) := by
  cases hm with
  | decode now bytes hrecv => exact account_decode s os now bytes h hrecv
  | push u hpush => exact account_push s os u h hpush
  | count hcount => exact account_count s os h hcount
  | pop a => exact account_stepPop s os a h
  | last a => exact account_lastPop s os _ h
  | tryPop => exact account_lastPop s os _ h
  | wait a => exact account_stepWait s os a h
  | check ht =>
      -- The thread moves on without touching the queue.
      refine account_same s _ os _ h rfl rfl rfl ?_ ?_ reports_nil <;>
        · rw [ht]
          cases s.closed <;> rfl
  | timeout ht | failed ht | notify ht | shutStore ht | shutNotify ht =>
      exact account_same s _ os _ h rfl rfl rfl (by rw [ht]; rfl) (by rw [ht]; rfl) reports_nil
  | call | release | checkClosed | woken | spurious | closeStore | join | dropCall =>
      exact account_same s _ os _ h rfl rfl rfl rfl rfl ⟨rfl, rfl, rfl, rfl, rfl⟩

theorem account_bind (queueCapacity : Nat) : Account (bind queueCapacity) [] :=
  ⟨rfl, ledger_nil, rfl, Nat.le_max_right _ 1, Nat.zero_le _, rfl, rfl⟩

/-- No step changes the capacity. -/
theorem capacity_step (s : UdpClient) (a : Action) (r : UdpClient × List Output)
    (hm : Moves s a r) : r.1.capacity = s.capacity := by
  cases hm with
  | decode now bytes =>
      rcases decode_cases s now bytes with ⟨u, _, hd⟩ | ⟨_, hd⟩ <;>
        rw [hd]
  | push u =>
      unfold pushUpdate
      split <;> rfl
  | pop a =>
      unfold stepPop
      repeat' split
      all_goals rfl
  | last | tryPop =>
      unfold lastPop
      split <;> rfl
  | wait a =>
      unfold stepWait
      repeat' split
      all_goals rfl
  | _ => rfl

/-- The capacity is the configured one, and never less than one. -/
theorem capacity_run (queueCapacity : Nat) (inputs : List Action) (t : UdpClient)
    (os : List Output) (h : udp.run (bind queueCapacity) inputs = some (t, os)) :
    t.capacity = max queueCapacity 1 :=
  run_moves (fun _ s _ => s.capacity = max queueCapacity 1)
    (fun _ s _ a r hs hm => (capacity_step s a r hm).trans hs)
    (bind queueCapacity) t inputs os rfl h

/-- The account holds after every run, whoever moved when. -/
theorem account_run (queueCapacity : Nat) (inputs : List Action) (t : UdpClient)
    (os : List Output) (h : udp.run (bind queueCapacity) inputs = some (t, os)) : Account t os :=
  run_moves (fun _ s os => Account s os) (fun _ s os a r hs hm => account_step s a r os hs hm)
    (bind queueCapacity) t inputs os (account_bind queueCapacity) h

/-- Over every interleaving: what was received is what was produced, in order
    and without repetition, less what was evicted and what is still on its way;
    the queue is bounded and holds the updates pushed last; and the counters
    add up. -/
theorem udp_account (queueCapacity : Nat) (inputs : List Action) (t : UdpClient)
    (os : List Output) (h : udp.run (bind queueCapacity) inputs = some (t, os)) :
    (receivedOf os).Sublist (producedOf os) ∧ t.queue.length ≤ max queueCapacity 1 ∧
      (∃ gone, pushedOf os = gone ++ t.queue ∧ (receivedOf os).Sublist gone ∧
        (evictedOf os).Sublist gone ∧ (receivedOf os ++ evictedOf os).Perm gone) ∧
      (producedOf os).length
        = (receivedOf os).length + t.queue.length + countedOf os + t.thread.inFlight ∧
      t.decoder.stats.messages = UInt64.ofNat (receivedOf os).length
        + UInt64.ofNat t.queue.length + t.decoder.stats.queueDropped
        + UInt64.ofNat t.thread.inFlight ∧
      t.decoder.stats.messages = UInt64.ofNat (producedOf os).length ∧
      t.thread.inFlight ≤ 1 ∧ (t.thread = .done → t.thread.inFlight = 0) := by
  have ha := account_run queueCapacity inputs t os h
  have hlen := ledger_length _ _ _ _ ha.ledger
  have hsub := ledger_sublist _ _ _ _ ha.ledger
  have hcap : t.capacity = max queueCapacity 1 := capacity_run queueCapacity inputs t os h
  -- Pushed is received, evicted or queued; evicted is counted or about to be.
  have htotal : (producedOf os).length
      = (receivedOf os).length + t.queue.length + countedOf os + t.thread.inFlight := by
    have hproduced := congrArg List.length ha.produced
    rw [List.length_append] at hproduced
    have hdropped := ha.dropped
    rw [ThreadPc.inFlight]
    omega
  refine ⟨?_, hcap ▸ ha.bound, ha.ledger, htotal, ?_, ha.messages, inFlight_le_one _, ?_⟩
  · rw [ha.produced]
    exact hsub.trans (List.sublist_append_left _ _)
  · rw [ha.messages, htotal, ha.queueDropped, ← UInt64.ofNat_add, ← UInt64.ofNat_add,
      ← UInt64.ofNat_add]
  · -- A thread that is done holds nothing.
    intro hdone
    rw [hdone]
    rfl

/-- Two one-fragment transactions arrive at a queue with room for one; the
    consumer takes the second while its predecessor's eviction is uncounted. -/
def evictingRun : List Action :=
  let frame (slot : UInt8) : Bytes :=
    [0xE7, 0x5A, 2, 2, 0, 0, 1, 0, 0, 0, 0, 0, 0, 0, 0, 0, slot, 0, 0, 0, 0, 0, 0, 0]
  [.thread, .recv (.datagram 5 (frame 1)), .thread, .thread, .call (.wait .nextUpdate), .thread,
   .recv (.datagram 6 (frame 2)), .thread, .consumer]

/-- The account of that run, with the eviction in flight. -/
theorem evictingRun_account : ∃ t os, udp.run (bind 0) evictingRun = some (t, os) ∧
    t.thread.inFlight = 1 ∧ (receivedOf os).length = 1 ∧
    (receivedOf os).Sublist (producedOf os) :=
  ⟨_, _, rfl, rfl, rfl, (udp_account 0 evictingRun _ _ rfl).1⟩

end Udp

end ShredStream
