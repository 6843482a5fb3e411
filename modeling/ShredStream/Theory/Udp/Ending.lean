import ShredStream.Theory.Udp.Ledger

/-!
# The End of the UDP Stream

`next_update` and `poll_next` return `None` after they have found the queue
empty, then the client closed, then the queue empty again, while the receive
thread runs beside them. Two parties close the client: `close`, which joins
the thread before it returns, and the thread's own guard, after its last push.

Either way a call that reads `closed` runs beside no push. If the flag was set
by `close`, no call runs until the thread is done; if it was set by the guard,
the thread is past its loop. So the second look at the queue sees everything
that was ever pushed, and when it sees nothing there will never be anything.

The same argument orders what happens to the queue once the client is closed.
Pushes come first, all of them while `close` waits for the thread, and pops
come afterwards, so what is not evicted is handed out in order.

## Main definitions

* `ThreadPc.Gone`: The thread is past its last push.
* `Ending`: The flag, the thread and the consumer fit together.
* `Draining`: What happens to the queue of a closed client.
* `Over`: The end has been announced.
* `EndsFinally`: What holds of the end of a run.

## Theorems

* `ending_run`: A call that saw the flag runs beside no push.
* `draining_run`: First pushes, then pops.
* `over_step`: After the end every answer is `None`.
* `answer_progress`: And every call is answered.
* `udp_end`: The end of every run is final and loses nothing.
-/

namespace ShredStream

namespace Udp

open Codec UdpClient BoundedFifo

/-- The thread has left its loop and set the flag. -/
def ThreadPc.Gone : ThreadPc → Prop
  | .shutNotify => True
  | .done => True
  | _ => False

/-- A closed client has no thread that pushes, or a consumer that waits for
    it; a call that has seen the flag has none beside it; and a thread that is
    gone has set the flag. -/
structure Ending (s : UdpClient) : Prop where
  closed : s.closed = true → s.thread.Gone ∨ s.consumer = .join
  last : ∀ a, s.consumer = .last a → s.thread.Gone
  gone : s.thread.Gone → s.closed = true

/-- The queue of a closed client since it held `start`: nothing is taken while
    the thread may push, and nothing is pushed once it is gone. -/
structure Draining (start : List TransactionUpdate) (s : UdpClient) (os : List Output) : Prop where
  closed : s.closed = true
  phase : s.thread.Gone ∨ (s.consumer = .join ∧ receivedOf os = [])
  account : Drained start (pushedOf os) (receivedOf os) (evictedOf os) s.queue

/-- How many steps the call in progress needs to return when there is nothing
    to return. -/
def ConsumerPc.left : ConsumerPc → Nat
  | .pop _ => 3
  | .check _ => 2
  | .last _ => 1
  | .tryPop => 1
  | _ => 0

/-- The consumer is between calls, or in a call that does not wait for more. -/
def ConsumerPc.Settled : ConsumerPc → Prop
  | .pending => False
  | .release => False
  | .wait _ => False
  | .parked _ => False
  | _ => True

/-- The end has been announced: nothing is queued, nothing will be, and the
    consumer is at no place where it waits for more. -/
structure Over (s : UdpClient) : Prop where
  closed : s.closed = true
  gone : s.thread.Gone
  queue : s.queue = []
  consumer : s.consumer.Settled

/-- The calls for an update among the actions. -/
def calledOf (inputs : List Action) : Nat :=
  inputs.countP (fun
    | .call (.wait _) => true
    | .call .tryNextUpdate => true
    | _ => false)

/-- The answers `None` among the outputs. -/
def nothingOf (os : List Output) : Nat :=
  os.countP (fun | .nothing _ => true | _ => false)

/-- One while a call for an update is in progress. -/
def ConsumerPc.asking (pc : ConsumerPc) : Nat := if 0 < pc.left then 1 else 0

/-- The end as a call sees it from `u`: it is announced only when nothing is
    queued and nothing will be pushed; a closed client has handed out by then
    what it held and did not evict; and afterwards every call for an update is
    answered with `None`, in as many steps of its own as it has places left. -/
structure EndsFinally (u : UdpClient) : Prop where
  empty : ∀ b v new a, udp.step u b = some (v, new) → .nothing (.wait a) ∈ new →
    u.queue = [] ∧ ∀ after t os, udp.run v after = some (t, os) → pushedOf os = []
  drained : u.closed = true → ∀ middle v os b w new c, udp.run u middle = some (v, os) →
    udp.step v b = some (w, new) → .nothing c ∈ new →
      u.queue ++ pushedOf os = evictedOf os ++ receivedOf os ∧
        (u.queue.drop (evictedOf os).length).IsPrefix (receivedOf os)
  afterwards : ∀ b v new a, udp.step u b = some (v, new) → .nothing (.wait a) ∈ new →
    ∀ after t os, udp.run v after = some (t, os) →
      (∀ o ∈ os, (∃ c, o = .nothing c) ∨ o = .closed) ∧
        calledOf after = nothingOf os + t.consumer.asking ∧
        (0 < t.consumer.left → ∃ r, udp.step t .consumer = some r ∧
          r.1.consumer.left + 1 = t.consumer.left)

/-! ### What the stretches leave alone -/

section Frame

variable (s : UdpClient)

/-- The thread and the flag are as they were, and the call has not come past
    the flag. -/
def Keeps (s' : UdpClient) : Prop :=
  s'.thread = s.thread ∧ s'.closed = s.closed ∧ ∀ a, s'.consumer ≠ .last a

theorem keeps_stepPop (a : Waiting) : Keeps s (s.stepPop a).1 := by
  unfold stepPop
  rcases pop s.queue with ⟨queue, _ | u⟩
  · exact ⟨rfl, rfl, nofun⟩
  · cases a <;> exact ⟨rfl, rfl, nofun⟩

theorem keeps_lastPop (c : Call) : Keeps s (s.lastPop c).1 := by
  unfold lastPop
  rcases pop s.queue with ⟨queue, _ | u⟩ <;> exact ⟨rfl, rfl, nofun⟩

theorem keeps_stepWait (a : Waiting) : Keeps s (s.stepWait a).1 := by
  unfold stepWait
  repeat' split
  all_goals exact ⟨rfl, rfl, nofun⟩

/-- Decoding and pushing keep the thread in its loop. -/
theorem decode_frame (now : SystemTime) (bytes : Bytes) :
    ¬ (s.decode now bytes).1.thread.Gone ∧ (s.decode now bytes).1.closed = s.closed ∧
      (s.decode now bytes).1.consumer = s.consumer ∧ (s.decode now bytes).1.queue = s.queue := by
  rcases decode_cases s now bytes with ⟨u, _, hd⟩ | ⟨_, hd⟩ <;>
  · rw [hd]
    exact ⟨not_false, rfl, rfl, rfl⟩

theorem pushUpdate_frame (u : TransactionUpdate) :
    ¬ (s.pushUpdate u).1.thread.Gone ∧ (s.pushUpdate u).1.closed = s.closed ∧
      (s.pushUpdate u).1.consumer = s.consumer := by
  unfold pushUpdate
  rcases forcePush s.capacity s.queue u with ⟨queue, _ | old⟩ <;>
    exact ⟨not_false, rfl, rfl⟩

end Frame

/-! ### No push beside a call that has seen the flag -/

/-- The thread at any other place is in its loop. -/
theorem not_gone (s : UdpClient) (pc : ThreadPc) (h : s.thread = pc) (hpc : ¬ pc.Gone) :
    ¬ s.thread.Gone := by
  rwa [h]

/-- A step of a thread that stays in its loop. -/
theorem ending_thread (s s' : UdpClient) (h : Ending s) (hthread : ¬ s.thread.Gone)
    (hthread' : ¬ s'.thread.Gone) (hclosed : s'.closed = s.closed)
    (hconsumer : s'.consumer = s.consumer) : Ending s' := by
  refine ⟨fun hc => ?_, fun a ha => ?_, fun hg => absurd hg hthread'⟩
  · rw [hclosed] at hc
    rcases h.closed hc with hg | hjoin
    · exact absurd hg hthread
    · exact Or.inr (hconsumer.trans hjoin)
  · exact absurd (h.last a (hconsumer ▸ ha)) hthread

/-- A step of a consumer that does not wait for the thread. -/
theorem ending_consumer (s s' : UdpClient) (h : Ending s) (hthread : s'.thread = s.thread)
    (hclosed : s'.closed = s.closed) (hjoin : s.consumer ≠ .join ∨ s.thread.Gone)
    (hlast : ∀ a, s'.consumer = .last a → s.thread.Gone) : Ending s' := by
  refine ⟨fun hc => ?_, fun a ha => ?_, fun hg => ?_⟩
  · rw [hclosed] at hc
    rw [hthread]
    rcases h.closed hc with hg | hj
    · exact Or.inl hg
    · exact Or.inl (hjoin.resolve_left (fun hne => hne hj))
  · rw [hthread]
    exact hlast a ha
  · rw [hclosed]
    exact h.gone (hthread ▸ hg)

/-- The same, where the call does not come past the flag. -/
theorem ending_keeps (s s' : UdpClient) (h : Ending s) (hk : Keeps s s')
    (hjoin : s.consumer ≠ .join ∨ s.thread.Gone) : Ending s' :=
  ending_consumer s s' h hk.1 hk.2.1 hjoin (fun a ha => absurd ha (hk.2.2 a))

/-- A step keeps the flag, the thread and the consumer in agreement. -/
theorem ending_step (s : UdpClient) (a : Action) (r : UdpClient × List Output) (h : Ending s)
    (hm : Moves s a r) : Ending r.1 := by
  -- Only the guard, `close` and the check of the flag are of interest.
  cases hm with
  | check ht =>
      refine ending_thread s _ h (not_gone s _ ht not_false) ?_ rfl rfl
      cases s.closed <;> exact not_false
  | timeout ht | failed ht | count ht | notify ht =>
      exact ending_thread s _ h (not_gone s _ ht not_false) not_false rfl rfl
  | decode now bytes ht =>
      rcases decode_frame s now bytes with ⟨hg, hc, hcon, _⟩
      exact ending_thread s _ h (not_gone s _ ht not_false) hg hc hcon
  | push u ht =>
      rcases pushUpdate_frame s u with ⟨hg, hc, hcon⟩
      exact ending_thread s _ h (not_gone s _ ht not_false) hg hc hcon
  -- The guard of the thread sets the flag after the last push.
  | shutStore ht => exact ⟨fun _ => Or.inl trivial, fun _ _ => trivial, fun _ => rfl⟩
  | shutNotify ht =>
      have hgone : s.thread.Gone := by
        rw [ht]
        trivial
      exact ⟨fun _ => Or.inl trivial, fun _ _ => trivial, fun _ => h.gone hgone⟩
  | call c hc =>
      refine ending_consumer s _ h rfl rfl (Or.inl ?_) (fun a ha => ?_)
      · rcases hc with hc | hc <;>
        · rw [hc]
          nofun
      · rcases c with _ | _ | _ <;> cases ha
  | pop a hc => exact ending_keeps s _ h (keeps_stepPop s a) (Or.inl (by rw [hc]; nofun))
  | release hc =>
      exact ending_keeps s _ h ⟨rfl, rfl, nofun⟩ (Or.inl (by rw [hc]; nofun))
  | checkClosed a hc =>
      have hne : s.consumer ≠ .join := by
        rw [hc]
        nofun
      refine ending_consumer s _ h rfl rfl (Or.inl hne) (fun b hb => ?_)
      -- The call goes on to its last look only when it has seen the flag.
      cases hclosed : s.closed with
      | true => exact (h.closed hclosed).resolve_right hne
      | false =>
          simp only [hclosed, Bool.false_eq_true, if_false] at hb
          cases hb
  | last a hc => exact ending_keeps s _ h (keeps_lastPop s _) (Or.inl (by rw [hc]; nofun))
  | wait a hc => exact ending_keeps s _ h (keeps_stepWait s a) (Or.inl (by rw [hc]; nofun))
  | woken w hc | dropCall w hc =>
      exact ending_keeps s _ h ⟨rfl, rfl, nofun⟩ (Or.inl (by rw [hc]; nofun))
  | spurious w hc => exact h
  | tryPop hc => exact ending_keeps s _ h (keeps_lastPop s _) (Or.inl (by rw [hc]; nofun))
  -- `close` sets it while the thread may push, and then waits.
  | closeStore hc => exact ⟨fun _ => Or.inr rfl, nofun, fun _ => rfl⟩
  -- `close` returns once the thread is done.
  | join hc hdone =>
      refine ending_keeps s _ h ⟨rfl, rfl, nofun⟩ (Or.inr ?_)
      rw [hdone]
      trivial

theorem ending_bind (queueCapacity : Nat) : Ending (bind queueCapacity) := by
  refine ⟨fun hc => ?_, fun a ha => ?_, fun hg => ?_⟩
  · cases hc
  · cases ha
  · exact hg.elim

theorem ending_run (queueCapacity : Nat) (inputs : List Action) (t : UdpClient)
    (os : List Output) (h : udp.run (bind queueCapacity) inputs = some (t, os)) : Ending t :=
  run_moves (fun _ s _ => Ending s) (fun _ s _ a r hs hm => ending_step s a r hs hm)
    (bind queueCapacity) t inputs os (ending_bind queueCapacity) h

/-! ### First pushes, then pops -/

/-- A step that leaves the queue alone, of the thread or beside one that is
    gone. -/
theorem draining_same (start : List TransactionUpdate) (s s' : UdpClient) (os new : List Output)
    (h : Draining start s os) (hclosed : s'.closed = true) (hqueue : s'.queue = s.queue)
    (hnew : pushedOf new = [] ∧ evictedOf new = [] ∧ receivedOf new = [])
    (hphase : s'.thread.Gone ∨ ¬ s.thread.Gone ∧ s'.consumer = s.consumer) :
    Draining start s' (os ++ new) := by
  refine ⟨hclosed, ?_, ?_⟩
  · rcases hphase with hg | ⟨hng, hconsumer⟩
    · exact Or.inl hg
    · rcases h.phase with hg | ⟨hjoin, hnone⟩
      · exact absurd hg hng
      · refine Or.inr ⟨hconsumer.trans hjoin, ?_⟩
        rw [receivedOf_append, hnone, hnew.2.2, List.append_nil]
  · rw [pushedOf_append, evictedOf_append, receivedOf_append, hnew.1, hnew.2.1, hnew.2.2, hqueue]
    simpa only [List.append_nil] using h.account

/-- A pop of a consumer that does not wait for the thread. -/
theorem draining_pop (start : List TransactionUpdate) (s s' : UdpClient) (os new : List Output)
    (h : Draining start s os) (hjoin : s.consumer ≠ .join) (hthread : s'.thread = s.thread)
    (hclosed : s'.closed = s.closed) (hqueue : s'.queue = (pop s.queue).1)
    (hnew : pushedOf new = [] ∧ evictedOf new = [] ∧ receivedOf new = (pop s.queue).2.toList) :
    Draining start s' (os ++ new) := by
  refine ⟨hclosed.trans h.closed, Or.inl ?_, ?_⟩
  · rw [hthread]
    exact h.phase.resolve_right (fun hp => hjoin hp.1)
  · rw [pushedOf_append, evictedOf_append, receivedOf_append, hnew.1, hnew.2.1, hnew.2.2, hqueue]
    simpa only [List.append_nil] using drained_pop _ _ _ _ _ h.account

/-- A push: the thread is in its loop, so nothing has been taken yet. -/
theorem draining_push (start : List TransactionUpdate) (s : UdpClient) (os : List Output)
    (u : TransactionUpdate) (h : Draining start s os) (hpush : s.thread = .push u) :
    Draining start (s.pushUpdate u).1 (os ++ (s.pushUpdate u).2) := by
  rcases h.phase with hg | ⟨hjoin, hnone⟩
  · rw [hpush] at hg
    exact hg.elim
  have hacc := h.account
  rw [hnone] at hacc
  -- Nothing has been taken, so an eviction takes the oldest of all.
  have hpushed := drained_forcePush s.capacity _ _ _ _ u hacc
  unfold pushUpdate
  rcases hf : forcePush s.capacity s.queue u with ⟨queue, _ | old⟩
  all_goals
    rw [hf] at hpushed
    refine ⟨h.closed, Or.inr ⟨hjoin, ?_⟩, ?_⟩
    · rw [receivedOf_append, hnone]
      rfl
    · rw [pushedOf_append, evictedOf_append, receivedOf_append, hnone]
      exact hpushed

/-- A consumer that does not wait for the thread has none beside it. -/
theorem draining_gone (start : List TransactionUpdate) (s : UdpClient) (os : List Output)
    (h : Draining start s os) (hjoin : s.consumer ≠ .join) : s.thread.Gone :=
  h.phase.resolve_right (fun hp => hjoin hp.1)

theorem draining_lastPop (start : List TransactionUpdate) (s : UdpClient) (os : List Output)
    (c : Call) (h : Draining start s os) (hjoin : s.consumer ≠ .join) :
    Draining start (s.lastPop c).1 (os ++ (s.lastPop c).2) := by
  have hgone := draining_gone start s os h hjoin
  unfold lastPop
  rcases hpop : pop s.queue with ⟨queue, _ | u⟩
  · exact draining_same start s _ os _ h h.closed rfl ⟨rfl, rfl, rfl⟩ (Or.inl hgone)
  · exact draining_pop start s _ os _ h hjoin rfl rfl (by rw [hpop]) (by rw [hpop]; exact
      ⟨rfl, rfl, rfl⟩)

theorem draining_stepPop (start : List TransactionUpdate) (s : UdpClient) (os : List Output)
    (a : Waiting) (h : Draining start s os) (hjoin : s.consumer ≠ .join) :
    Draining start (s.stepPop a).1 (os ++ (s.stepPop a).2) := by
  have hgone := draining_gone start s os h hjoin
  unfold stepPop
  rcases hpop : pop s.queue with ⟨queue, _ | u⟩
  · exact draining_same start s _ os _ h h.closed rfl ⟨rfl, rfl, rfl⟩ (Or.inl hgone)
  · cases a <;>
      exact draining_pop start s _ os _ h hjoin rfl rfl (by rw [hpop]) (by rw [hpop]; exact
        ⟨rfl, rfl, rfl⟩)

theorem draining_stepWait (start : List TransactionUpdate) (s : UdpClient) (os : List Output)
    (a : Waiting) (h : Draining start s os) (hjoin : s.consumer ≠ .join) :
    Draining start (s.stepWait a).1 (os ++ (s.stepWait a).2) := by
  have hgone := draining_gone start s os h hjoin
  unfold stepWait
  repeat' split
  all_goals exact draining_same start s _ os _ h h.closed rfl ⟨rfl, rfl, rfl⟩ (Or.inl hgone)

/-- Decoding leaves the queue alone. -/
theorem draining_decode (start : List TransactionUpdate) (s : UdpClient) (os : List Output)
    (now : SystemTime) (bytes : Bytes) (h : Draining start s os) (hrecv : s.thread = .recv) :
    Draining start (s.decode now bytes).1 (os ++ (s.decode now bytes).2) := by
  have hng := not_gone s .recv hrecv not_false
  rcases reports_notices (s.decoder.push now bytes).notices with ⟨_, hp, he, _, hr⟩
  rcases decode_frame s now bytes with ⟨_, hc, hcon, hq⟩
  refine draining_same start s _ os _ h (hc.trans h.closed) hq ?_ (Or.inr ⟨hng, hcon⟩)
  rcases decode_cases s now bytes with ⟨u, _, hd⟩ | ⟨_, hd⟩
  · rw [hd]
    simp only [pushedOf_append, evictedOf_append, receivedOf_append, hp, he, hr, List.nil_append]
    exact ⟨rfl, rfl, rfl⟩
  · rw [hd]
    exact ⟨hp, he, hr⟩

/-- A step of a closed client keeps the account of its queue. -/
theorem draining_step (start : List TransactionUpdate) (s : UdpClient) (a : Action)
    (r : UdpClient × List Output) (os : List Output) (h : Draining start s os)
    (hm : Moves s a r) : Draining start r.1 (os ++ r.2) := by
  have hsame := draining_same start s
  cases hm with
  | check ht | timeout ht | failed ht | count ht | notify ht =>
      exact hsame _ os _ h h.closed rfl ⟨rfl, rfl, rfl⟩ (Or.inr ⟨not_gone s _ ht not_false, rfl⟩)
  | decode now bytes ht => exact draining_decode start s os now bytes h ht
  | push u ht => exact draining_push start s os u h ht
  | shutStore ht => exact hsame _ os _ h rfl rfl ⟨rfl, rfl, rfl⟩ (Or.inl trivial)
  | shutNotify ht => exact hsame _ os _ h h.closed rfl ⟨rfl, rfl, rfl⟩ (Or.inl trivial)
  | pop a hc => exact draining_stepPop start s os a h (by rw [hc]; nofun)
  | last a hc => exact draining_lastPop start s os _ h (by rw [hc]; nofun)
  | tryPop hc => exact draining_lastPop start s os _ h (by rw [hc]; nofun)
  | wait a hc => exact draining_stepWait start s os a h (by rw [hc]; nofun)
  | call c hc =>
      refine hsame _ os _ h h.closed rfl ⟨rfl, rfl, rfl⟩ (Or.inl (draining_gone start s os h ?_))
      rcases hc with hc | hc <;>
      · rw [hc]
        nofun
  | release hc | checkClosed a hc | woken w hc | dropCall w hc =>
      exact hsame _ os _ h h.closed rfl ⟨rfl, rfl, rfl⟩
        (Or.inl (draining_gone start s os h (by rw [hc]; nofun)))
  | spurious w hc =>
      exact hsame _ os _ h h.closed rfl ⟨rfl, rfl, rfl⟩
        (Or.inl (draining_gone start s os h (by rw [hc]; nofun)))
  | closeStore hc =>
      exact hsame _ os _ h rfl rfl ⟨rfl, rfl, rfl⟩
        (Or.inl (draining_gone start s os h (by rw [hc]; nofun)))
  | join hc hdone =>
      refine hsame _ os _ h h.closed rfl ⟨rfl, rfl, rfl⟩ (Or.inl ?_)
      rw [hdone]
      trivial

/-- From any state of a closed client on. -/
theorem draining_run (u v : UdpClient) (inputs : List Action) (os : List Output)
    (hclosed : u.closed = true) (he : Ending u) (h : udp.run u inputs = some (v, os)) :
    Draining u.queue v os := by
  -- The account starts with what the queue holds and no history.
  have hphase : u.thread.Gone ∨ (u.consumer = .join ∧ receivedOf [] = []) := by
    rcases he.closed hclosed with hg | hj
    · exact Or.inl hg
    · exact Or.inr ⟨hj, rfl⟩
  exact run_moves (fun _ s os => Draining u.queue s os)
    (fun _ s os a r hs hm => draining_step u.queue s a r os hs hm)
    u v inputs os ⟨hclosed, hphase, drained_start u.queue⟩ h

/-! ### A thread that is gone -/

/-- A thread that is gone stays gone and pushes nothing. -/
theorem gone_step (s : UdpClient) (a : Action) (r : UdpClient × List Output) (h : s.thread.Gone)
    (hm : Moves s a r) : r.1.thread.Gone ∧ pushedOf r.2 = [] := by
  cases hm with
  | check ht | timeout ht | failed ht | count ht | notify ht | shutStore ht =>
      exact absurd h (not_gone s _ ht not_false)
  | decode now bytes ht => exact absurd h (not_gone s _ ht not_false)
  | push u ht => exact absurd h (not_gone s _ ht not_false)
  | shutNotify ht => exact ⟨trivial, rfl⟩
  | pop a hc =>
      refine ⟨(keeps_stepPop s a).1 ▸ h, ?_⟩
      unfold stepPop
      repeat' split
      all_goals rfl
  | last a hc | tryPop hc =>
      refine ⟨(keeps_lastPop s _).1 ▸ h, ?_⟩
      unfold lastPop
      split <;> rfl
  | wait a hc =>
      refine ⟨(keeps_stepWait s a).1 ▸ h, ?_⟩
      unfold stepWait
      repeat' split
      all_goals rfl
  | call | release | checkClosed | woken | spurious | closeStore | join | dropCall =>
      exact ⟨h, rfl⟩

theorem gone_run (s t : UdpClient) (inputs : List Action) (os : List Output)
    (hs : s.thread.Gone) (h : udp.run s inputs = some (t, os)) : pushedOf os = [] := by
  refine (run_moves (fun _ u os => u.thread.Gone ∧ pushedOf os = [])
    (fun _ u os a r hu hm => ?_) s t inputs os ⟨hs, rfl⟩ h).2
  rcases gone_step u a r hu.1 hm with ⟨hg, hnew⟩
  exact ⟨hg, by rw [pushedOf_append, hu.2, hnew, List.append_nil]⟩

/-! ### After the end -/

@[simp] theorem calledOf_append (is js : List Action) :
    calledOf (is ++ js) = calledOf is + calledOf js := List.countP_append

@[simp] theorem nothingOf_append (os new : List Output) :
    nothingOf (os ++ new) = nothingOf os + nothingOf new := List.countP_append

/-- A pop whose result is returned says `None` only of an empty queue. -/
theorem nothing_lastPop (s : UdpClient) (c c' : Call) (h : .nothing c ∈ (s.lastPop c').2) :
    c = c' ∧ s.queue = [] ∧ (s.lastPop c').1 = { s with consumer := .idle } := by
  unfold lastPop at h ⊢
  rcases hpop : pop s.queue with ⟨queue, _ | u⟩
  · rw [hpop, List.mem_singleton, Output.nothing.injEq] at h
    exact ⟨h, pop_none s.queue queue hpop, rfl⟩
  · rw [hpop, List.mem_singleton] at h
    cases h

/-- `None` is said by the last look of a waiting call, or by `try_next_update`. -/
theorem nothing_step (s : UdpClient) (b : Action) (r : UdpClient × List Output) (c : Call)
    (hm : Moves s b r) (h : .nothing c ∈ r.2) :
    s.queue = [] ∧ r.1 = { s with consumer := .idle } ∧
      ((∃ a, s.consumer = .last a ∧ c = .wait a) ∨
        (s.consumer = .tryPop ∧ c = .tryNextUpdate)) := by
  cases hm with
  | last a hc =>
      rcases nothing_lastPop s c _ h with ⟨rfl, hq, hr⟩
      exact ⟨hq, hr, Or.inl ⟨a, hc, rfl⟩⟩
  | tryPop hc =>
      rcases nothing_lastPop s c _ h with ⟨rfl, hq, hr⟩
      exact ⟨hq, hr, Or.inr ⟨hc, rfl⟩⟩
  | decode now bytes =>
      exfalso
      have hnone : ∀ ns : List Notice, Output.nothing c ∉ ns.map Output.notice := by
        intro ns hns
        rcases List.mem_map.mp hns with ⟨n, _, hn⟩
        cases hn
      rcases decode_cases s now bytes with ⟨u, _, hd⟩ | ⟨_, hd⟩
      · rw [hd] at h
        rcases List.mem_append.mp h with h | h
        · exact hnone _ h
        · cases List.mem_singleton.mp h
      · rw [hd] at h
        exact hnone _ h
  | push u =>
      exfalso
      unfold pushUpdate at h
      split at h <;> simp only [List.mem_cons, reduceCtorEq, List.not_mem_nil, or_self] at h
  | pop a =>
      exfalso
      unfold stepPop at h
      repeat' split at h
      all_goals simp only [List.mem_cons, reduceCtorEq, List.not_mem_nil, or_self] at h
  | wait a =>
      exfalso
      unfold stepWait at h
      repeat' split at h
      all_goals simp only [List.mem_cons, reduceCtorEq, List.not_mem_nil, or_self] at h
  | _ => simp only [List.mem_cons, reduceCtorEq, List.not_mem_nil, or_self] at h

/-- Once a waiting call has said `None`, it is over. -/
theorem over_of_nothing (s : UdpClient) (b : Action) (r : UdpClient × List Output) (a : Waiting)
    (he : Ending s) (hm : Moves s b r) (h : .nothing (.wait a) ∈ r.2) : Over r.1 := by
  rcases nothing_step s b r _ hm h with ⟨hq, hr, ⟨a', hc, _⟩ | ⟨_, hc⟩⟩
  · have hgone := he.last a' hc
    rw [hr]
    exact ⟨he.gone hgone, hgone, hq, trivial⟩
  · cases hc

/-- After the end only answers `None` and the end of `close` are emitted, one
    `None` for each call that is not still in progress. -/
theorem over_step (s : UdpClient) (b : Action) (r : UdpClient × List Output) (h : Over s)
    (hm : Moves s b r) : Over r.1 ∧ (∀ o ∈ r.2, (∃ c, o = .nothing c) ∨ o = .closed) ∧
      s.consumer.asking + calledOf [b] = nothingOf r.2 + r.1.consumer.asking := by
  have hnil : ∀ o ∈ ([] : List Output), (∃ c, o = .nothing c) ∨ o = .closed := nofun
  have hconsumer := h.consumer
  cases hm with
  | check ht | timeout ht | failed ht | count ht | notify ht | shutStore ht =>
      exact absurd h.gone (not_gone s _ ht not_false)
  | decode now bytes ht => exact absurd h.gone (not_gone s _ ht not_false)
  | push u ht => exact absurd h.gone (not_gone s _ ht not_false)
  | shutNotify ht =>
      exact ⟨⟨h.closed, trivial, h.queue, hconsumer⟩, hnil, Nat.add_comm _ _⟩
  | call c hc =>
      -- The consumer was idle, and the call is at its first place now.
      have hidle : s.consumer = .idle := by
        rcases hc with hc | hc
        · exact hc
        · rw [hc] at hconsumer
          exact hconsumer.elim
      rw [hidle]
      rcases c with a | _ | _ <;> exact ⟨⟨h.closed, h.gone, h.queue, trivial⟩, hnil, rfl⟩
  | pop a hc =>
      rw [hc]
      unfold stepPop
      rw [h.queue]
      exact ⟨⟨h.closed, h.gone, rfl, trivial⟩, hnil, rfl⟩
  | checkClosed a hc =>
      rw [hc]
      simp only [h.closed, if_true]
      exact ⟨⟨rfl, h.gone, h.queue, trivial⟩, hnil, rfl⟩
  | last a hc | tryPop hc =>
      rw [hc]
      unfold lastPop
      rw [h.queue]
      refine ⟨⟨h.closed, h.gone, rfl, trivial⟩, fun o ho => Or.inl ?_, rfl⟩
      exact ⟨_, List.mem_singleton.mp ho⟩
  | closeStore hc =>
      rw [hc]
      exact ⟨⟨rfl, h.gone, h.queue, trivial⟩, hnil, rfl⟩
  | join hc =>
      rw [hc]
      refine ⟨⟨h.closed, h.gone, h.queue, trivial⟩, fun o ho => Or.inr ?_, rfl⟩
      exact List.mem_singleton.mp ho
  | release hc | wait a hc | woken w hc | spurious w hc | dropCall w hc =>
      rw [hc] at hconsumer
      exact hconsumer.elim

/-- Over a run from the end on. -/
theorem over_run (s t : UdpClient) (inputs : List Action) (os : List Output) (hs : Over s)
    (hidle : s.consumer = .idle) (h : udp.run s inputs = some (t, os)) :
    Over t ∧ (∀ o ∈ os, (∃ c, o = .nothing c) ∨ o = .closed) ∧
      calledOf inputs = nothingOf os + t.consumer.asking := by
  have h0 : calledOf [] = nothingOf [] + s.consumer.asking := by
    rw [hidle]
    rfl
  refine run_moves
    (fun inputs u os => Over u ∧ (∀ o ∈ os, (∃ c, o = .nothing c) ∨ o = .closed) ∧
      calledOf inputs = nothingOf os + u.consumer.asking)
    ?_ s t inputs os ⟨hs, nofun, h0⟩ h
  -- The counts of calls and answers move together, step by step.
  rintro before u os b r ⟨hu, hos, hcount⟩ hm
  rcases over_step u b r hu hm with ⟨hu', hnew, hadd⟩
  refine ⟨hu', fun o ho => ?_, ?_⟩
  · rcases List.mem_append.mp ho with ho | ho
    · exact hos o ho
    · exact hnew o ho
  · rw [calledOf_append, nothingOf_append]
    omega

/-- A call in progress can go on whatever the thread does, and comes one step
    closer to its answer. -/
theorem answer_progress (s : UdpClient) (h : Over s) (hleft : 0 < s.consumer.left) :
    ∃ r, udp.step s .consumer = some r ∧ r.1.consumer.left + 1 = s.consumer.left := by
  -- One place of a call after the other; the queue is empty at each.
  have hqueue := h.queue
  have hclosed := h.closed
  cases hc : s.consumer <;> rw [hc] at hleft
  case pop a =>
    refine ⟨s.stepPop a, by simp only [udp, step, stepConsumer, hc], ?_⟩
    simp only [stepPop, hqueue, BoundedFifo.pop, ConsumerPc.left]
  case check a =>
    refine ⟨_, by simp only [udp, step, stepConsumer, hc]; rfl, ?_⟩
    simp only [hclosed, if_true, ConsumerPc.left]
  case last a =>
    refine ⟨s.lastPop (.wait a), by simp only [udp, step, stepConsumer, hc], ?_⟩
    simp only [lastPop, hqueue, BoundedFifo.pop, ConsumerPc.left]
  case tryPop =>
    refine ⟨s.lastPop .tryNextUpdate, by simp only [udp, step, stepConsumer, hc], ?_⟩
    simp only [lastPop, hqueue, BoundedFifo.pop, ConsumerPc.left]
  all_goals exact absurd hleft (Nat.lt_irrefl 0)

/-- Over every interleaving, the end of the stream is final and loses
    nothing. -/
theorem udp_end (queueCapacity : Nat) (before : List Action) (u : UdpClient) (os₁ : List Output)
    (h : udp.run (bind queueCapacity) before = some (u, os₁)) : EndsFinally u := by
  have he := ending_run queueCapacity before u os₁ h
  refine ⟨?_, ?_, ?_⟩
  · -- Announced only when nothing is queued or will be pushed.
    intro b v new a hstep hnew
    have hm := moves_of_step u b (v, new) hstep
    refine ⟨(nothing_step u b (v, new) _ hm hnew).1, fun after t os hrun => ?_⟩
    exact gone_run v t after os (over_of_nothing u b (v, new) a he hm hnew).gone hrun
  · intro hclosed middle v os b w new c hrun hstep hnew
    have hd := (draining_run u v middle os hclosed he hrun).account
    -- Nothing is queued when `None` is said, so all of the account has left.
    rw [Drained, (nothing_step v b (w, new) c (moves_of_step v b (w, new) hstep) hnew).1,
      List.append_nil] at hd
    refine ⟨hd, ⟨(pushedOf os).drop ((evictedOf os).length - u.queue.length), ?_⟩⟩
    rw [← List.drop_append, hd, List.drop_left]
  · -- From the answer on, the client is in a state that stays as it is.
    intro b v new a hstep hnew after t os hrun
    have hm := moves_of_step u b (v, new) hstep
    have hover := over_of_nothing u b (v, new) a he hm hnew
    have hidle : v.consumer = .idle := by
      have hr := (nothing_step u b (v, new) _ hm hnew).2.1
      simp only at hr
      rw [hr]
    rcases over_run v t after os hover hidle hrun with ⟨ht, hos, hcount⟩
    exact ⟨hos, hcount, fun hleft => answer_progress t ht hleft⟩

/-- A transaction arrives, and `close` sets the flag before it is pushed. -/
def lateShutdown : List Action :=
  [.thread, .recv (.datagram 5 [0xE7, 0x5A, 2, 2, 0, 0, 1, 0, 0, 0, 0, 0, 0, 0, 0, 0, 7, 0, 0, 0, 0,
    0, 0, 0]), .call .close, .consumer, .thread, .thread, .thread, .thread, .thread, .consumer]

/-- The transaction waits in the queue of the closed client. -/
theorem lateShutdown_end : ∃ u os, udp.run (bind 2) lateShutdown = some (u, os) ∧
    u.closed = true ∧ u.queue.length = 1 ∧ EndsFinally u :=
  ⟨_, _, rfl, rfl, rfl, udp_end 2 lateShutdown _ _ rfl⟩

end Udp

end ShredStream
