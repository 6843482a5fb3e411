import ShredStream.Theory.Udp.Ending

/-!
# Closing Returns

`close` sets the flag and joins the receive thread, which may be anywhere in
its loop: about to receive, with an update in its hand, or on its way out.
The thread looks at the flag once per round, so it finishes the round it is
in, and its shutdown guard runs.

Each place of the thread has a number of steps that are left from there once
the flag is set, and every step of the thread takes at least one of them.
None of its places is one where it could get stuck: `recv` returns, because
the socket has a read timeout, and the others wait for nobody. So a thread of
a closed client is done after at most seven steps of its own, one of them a
receive, in which it pushes at most one update, and then `close` returns.

## Main definitions

* `ThreadPc.left`: The steps that are left for a thread that has to finish.
* `ThreadPc.receives`, `ThreadPc.pushes`: What it may still do until then.
* `stepsOf`, `receivesOf`: The thread's part of some actions.
* `Finishing`: What a closed client has used up.

## Theorems

* `finishing_step`: A step takes what is left.
* `thread_moves`: A thread that is not done can move.
* `close_returns`: From every reachable state of a closed client.
-/

namespace ShredStream

namespace Udp

open Codec UdpClient BoundedFifo

/-- The steps that are left for the thread of a closed client. -/
def ThreadPc.left : ThreadPc → Nat
  | .recv => 7
  | .push _ => 6
  | .count => 5
  | .notify => 4
  | .check => 3
  | .shutStore => 2
  | .shutNotify => 1
  | .done => 0

/-- The receives that are left. -/
def ThreadPc.receives : ThreadPc → Nat
  | .recv => 1
  | _ => 0

/-- The pushes that are left. -/
def ThreadPc.pushes : ThreadPc → Nat
  | .recv => 1
  | .push _ => 1
  | _ => 0

/-- The steps of the thread among the actions. -/
def stepsOf (inputs : List Action) : Nat :=
  inputs.countP (fun
    | .recv _ => true
    | .thread => true
    | _ => false)

/-- The receives among them. -/
def receivesOf (inputs : List Action) : Nat :=
  inputs.countP (fun
    | .recv _ => true
    | _ => false)

/-- A client that was closed at `s`, after some more actions: what they have
    used up and what is left make no more than what was left at `s`. -/
structure Finishing (s : UdpClient) (inputs : List Action) (t : UdpClient) (os : List Output) :
    Prop where
  closed : t.closed = true
  steps : stepsOf inputs + t.thread.left ≤ s.thread.left
  receives : receivesOf inputs + t.thread.receives ≤ s.thread.receives
  pushes : (pushedOf os).length + t.thread.pushes ≤ s.thread.pushes

@[simp] theorem stepsOf_append (inputs new : List Action) :
    stepsOf (inputs ++ new) = stepsOf inputs + stepsOf new := List.countP_append

@[simp] theorem receivesOf_append (inputs new : List Action) :
    receivesOf (inputs ++ new) = receivesOf inputs + receivesOf new := List.countP_append

/-- A step that uses up what it takes. -/
theorem finishing_add (s u u' : UdpClient) (before : List Action) (os new : List Output)
    (a : Action) (h : Finishing s before u os) (hclosed : u'.closed = true)
    (hsteps : stepsOf [a] + u'.thread.left ≤ u.thread.left)
    (hreceives : receivesOf [a] + u'.thread.receives ≤ u.thread.receives)
    (hpushes : (pushedOf new).length + u'.thread.pushes ≤ u.thread.pushes) :
    Finishing s (before ++ [a]) u' (os ++ new) := by
  have h₁ := h.steps
  have h₂ := h.receives
  have h₃ := h.pushes
  refine ⟨hclosed, ?_, ?_, ?_⟩
  · rw [stepsOf_append]
    omega
  · rw [receivesOf_append]
    omega
  · rw [pushedOf_append, List.length_append]
    omega

/-- A step of the consumer, which uses up nothing. -/
theorem finishing_consumer (s u u' : UdpClient) (before : List Action) (os new : List Output)
    (a : Action) (h : Finishing s before u os) (hthread : u'.thread = u.thread)
    (hclosed : u'.closed = u.closed ∨ u'.closed = true)
    (ha : stepsOf [a] = 0 ∧ receivesOf [a] = 0) (hnew : pushedOf new = []) :
    Finishing s (before ++ [a]) u' (os ++ new) := by
  refine finishing_add s u u' before os new a h ?_ ?_ ?_ ?_
  · rcases hclosed with hc | hc
    · rw [hc]
      exact h.closed
    · exact hc
  · rw [hthread, ha.1, Nat.zero_add]
  · rw [hthread, ha.2, Nat.zero_add]
  · rw [hthread, hnew, List.length_nil, Nat.zero_add]

/-- A step of the thread from a place that is known. -/
theorem finishing_thread (s u u' : UdpClient) (before : List Action) (os new : List Output)
    (a : Action) (pc pc' : ThreadPc) (h : Finishing s before u os) (hpc : u.thread = pc)
    (hpc' : u'.thread = pc') (hclosed : u'.closed = u.closed ∨ u'.closed = true)
    (hsteps : stepsOf [a] + pc'.left ≤ pc.left)
    (hreceives : receivesOf [a] + pc'.receives ≤ pc.receives)
    (hpushes : (pushedOf new).length + pc'.pushes ≤ pc.pushes) :
    Finishing s (before ++ [a]) u' (os ++ new) := by
  refine finishing_add s u u' before os new a h ?_ ?_ ?_ ?_
  · rcases hclosed with hc | hc
    · rw [hc]
      exact h.closed
    · exact hc
  · rwa [hpc, hpc']
  · rwa [hpc, hpc']
  · rwa [hpc, hpc']

theorem finishing_decode (s u : UdpClient) (before : List Action) (os : List Output)
    (now : SystemTime) (bytes : Bytes) (h : Finishing s before u os) (hrecv : u.thread = .recv) :
    Finishing s (before ++ [.recv (.datagram now bytes)]) (u.decode now bytes).1
      (os ++ (u.decode now bytes).2) := by
  rcases decode_cases u now bytes with ⟨x, _, hd⟩ | ⟨_, hd⟩ <;> rw [hd]
  · have hnew : pushedOf ((u.decoder.push now bytes).notices.map Output.notice ++ [.produced x])
        = [] := by
      rw [pushedOf_append, (reports_notices _).2.1]
      rfl
    refine finishing_thread s u _ before os _ _ .recv (.push x) h hrecv rfl (Or.inl rfl) ?_ ?_ ?_
    · exact Nat.le_refl 7
    · exact Nat.le_refl 1
    · rw [hnew]
      exact Nat.le_refl 1
  · refine finishing_thread s u _ before os _ _ .recv .check h hrecv rfl (Or.inl rfl) ?_ ?_ ?_
    · exact (by decide : 1 + 3 ≤ 7)
    · exact Nat.le_refl 1
    · rw [(reports_notices _).2.1]
      exact Nat.zero_le 1

theorem finishing_push (s u : UdpClient) (before : List Action) (os : List Output)
    (x : TransactionUpdate) (h : Finishing s before u os) (hpush : u.thread = .push x) :
    Finishing s (before ++ [.thread]) (u.pushUpdate x).1 (os ++ (u.pushUpdate x).2) := by
  unfold pushUpdate
  rcases forcePush u.capacity u.queue x with ⟨queue, _ | old⟩
  · exact finishing_thread s u _ before os _ _ (.push x) .notify h hpush rfl (Or.inl rfl)
      (by decide : 1 + 4 ≤ 6) (Nat.le_refl 0) (Nat.le_refl 1)
  · exact finishing_thread s u _ before os _ _ (.push x) .count h hpush rfl (Or.inl rfl)
      (Nat.le_refl 6) (Nat.le_refl 0) (Nat.le_refl 1)

/-- A step of a closed client takes what is left. -/
theorem finishing_step (s u : UdpClient) (before : List Action) (os : List Output) (a : Action)
    (r : UdpClient × List Output) (h : Finishing s before u os) (hm : Moves u a r) :
    Finishing s (before ++ [a]) r.1 (os ++ r.2) := by
  cases hm with
  | check ht =>
      -- The flag is set, so the round is the last one.
      refine finishing_thread s u _ before os _ _ .check .shutStore h ht ?_ (Or.inl rfl)
        (Nat.le_refl 3) (Nat.le_refl 0) (Nat.le_refl 0)
      simp only [h.closed, if_true]
  | timeout ht =>
      exact finishing_thread s u _ before os _ _ .recv .check h ht rfl (Or.inl rfl)
        (by decide : 1 + 3 ≤ 7) (Nat.le_refl 1) (Nat.zero_le 1)
  | failed ht =>
      exact finishing_thread s u _ before os _ _ .recv .shutStore h ht rfl (Or.inl rfl)
        (by decide : 1 + 2 ≤ 7) (Nat.le_refl 1) (Nat.zero_le 1)
  | decode now bytes ht => exact finishing_decode s u before os now bytes h ht
  | push x ht => exact finishing_push s u before os x h ht
  | count ht =>
      exact finishing_thread s u _ before os _ _ .count .notify h ht rfl (Or.inl rfl)
        (Nat.le_refl 5) (Nat.le_refl 0) (Nat.le_refl 0)
  | notify ht =>
      exact finishing_thread s u _ before os _ _ .notify .check h ht rfl (Or.inl rfl)
        (Nat.le_refl 4) (Nat.le_refl 0) (Nat.le_refl 0)
  | shutStore ht =>
      exact finishing_thread s u _ before os _ _ .shutStore .shutNotify h ht rfl (Or.inr rfl)
        (Nat.le_refl 2) (Nat.le_refl 0) (Nat.le_refl 0)
  | shutNotify ht =>
      exact finishing_thread s u _ before os _ _ .shutNotify .done h ht rfl (Or.inl rfl)
        (Nat.le_refl 1) (Nat.le_refl 0) (Nat.le_refl 0)
  | pop a hc =>
      rcases keeps_stepPop u a with ⟨hthread, hclosed, _⟩
      refine finishing_consumer s u _ before os _ _ h hthread (Or.inl hclosed) ⟨rfl, rfl⟩ ?_
      unfold stepPop
      rcases pop u.queue with ⟨queue, _ | x⟩
      · rfl
      · cases a <;> rfl
  | last a hc | tryPop hc =>
      rcases keeps_lastPop u _ with ⟨hthread, hclosed, _⟩
      refine finishing_consumer s u _ before os _ _ h hthread (Or.inl hclosed) ⟨rfl, rfl⟩ ?_
      unfold lastPop
      rcases pop u.queue with ⟨queue, _ | x⟩ <;> rfl
  | wait a hc =>
      rcases keeps_stepWait u a with ⟨hthread, hclosed, _⟩
      refine finishing_consumer s u _ before os _ _ h hthread (Or.inl hclosed) ⟨rfl, rfl⟩ ?_
      unfold stepWait
      repeat' split
      all_goals rfl
  | closeStore hc =>
      exact finishing_consumer s u _ before os _ _ h rfl (Or.inr rfl) ⟨rfl, rfl⟩ rfl
  | call c hc | release hc | checkClosed a hc | woken w hc hw | spurious w hc hw | join hc hdone
  | dropCall w hc =>
      exact finishing_consumer s u _ before os _ _ h rfl (Or.inl rfl) ⟨rfl, rfl⟩ rfl

theorem finishing_run (s t : UdpClient) (inputs : List Action) (os : List Output)
    (hclosed : s.closed = true) (h : udp.run s inputs = some (t, os)) :
    Finishing s inputs t os :=
  run_moves (fun before u os => Finishing s before u os)
    (fun before u os a r hu hm => finishing_step s u before os a r hu hm) s t inputs os
    ⟨hclosed, (Nat.zero_add _).le, (Nat.zero_add _).le, (Nat.zero_add _).le⟩ h

/-- A thread that is not done can move, whoever else does; in `recv` it moves
    when the socket answers, with whatever. -/
theorem thread_moves (s : UdpClient) (h : s.thread ≠ .done) :
    (udp.step s .thread).isSome ∨
      s.thread = .recv ∧ ∀ x, (udp.step s (.recv x)).isSome := by
  cases ht : s.thread with
  | recv =>
      refine Or.inr ⟨rfl, fun x => ?_⟩
      cases x <;> simp only [udp, step, stepRecv, ht, if_true, Option.isSome_some]
  | done => exact absurd ht h
  | check | push u | count | notify | shutStore | shutNotify =>
      refine Or.inl ?_
      simp only [udp, step, stepThread, ht, Option.isSome_some]

theorem left_le (pc : ThreadPc) : pc.left ≤ 7 ∧ pc.receives ≤ 1 ∧ pc.pushes ≤ 1 := by
  cases pc with
  | recv => exact ⟨Nat.le_refl 7, Nat.le_refl 1, Nat.le_refl 1⟩
  | push u => exact ⟨(by decide : 6 ≤ 7), Nat.zero_le 1, Nat.le_refl 1⟩
  | check | count | notify | shutStore | shutNotify | done =>
      exact ⟨by decide, Nat.zero_le 1, Nat.zero_le 1⟩

theorem left_zero (pc : ThreadPc) (h : pc.left = 0) : pc = .done := by
  cases pc with
  | done => rfl
  | recv | push u | check | count | notify | shutStore | shutNotify => cases h

/-- From any state of a closed client, in every run: the client stays closed,
    the thread takes at most seven steps more, one of them a receive, and
    pushes at most one update; it is never stuck before it is done, and after
    seven steps it is done. A `close` that waits for it then returns. -/
theorem close_returns (s : UdpClient) (hclosed : s.closed = true) (inputs : List Action)
    (t : UdpClient) (os : List Output) (h : udp.run s inputs = some (t, os)) :
    t.closed = true ∧
    (stepsOf inputs ≤ 7 ∧ receivesOf inputs ≤ 1 ∧ (pushedOf os).length ≤ 1) ∧
    (t.thread ≠ .done → (udp.step t .thread).isSome ∨
      t.thread = .recv ∧ ∀ x, (udp.step t (.recv x)).isSome) ∧
    (stepsOf inputs = 7 → t.thread = .done) ∧
    (t.thread = .done → t.consumer = .join →
      udp.step t .consumer = some ({ t with consumer := .idle }, [.closed])) := by
  have hf := finishing_run s t inputs os hclosed h
  have hsteps := hf.steps
  have hreceives := hf.receives
  have hpushes := hf.pushes
  rcases left_le s.thread with ⟨h₁, h₂, h₃⟩
  refine ⟨hf.closed, ⟨by omega, by omega, by omega⟩, thread_moves t, fun hall => ?_,
    fun hdone hjoin => ?_⟩
  · exact left_zero _ (by omega)
  · simp only [udp, step, stepConsumer, hjoin, hdone, if_true]

/-- The flag is set before an update is pushed: the thread pushes it and takes
    four steps more, and `close` returns. -/
theorem lateShutdown_returns : ∃ s os t os', udp.run (bind 2) (lateShutdown.take 4) = some (s, os) ∧
    udp.run s (lateShutdown.drop 4) = some (t, os') ∧ stepsOf (lateShutdown.drop 4) = 5 ∧
    (pushedOf os').length ≤ 1 ∧ t.closed = true := by
  have hrun : ∃ s os t os', udp.run (bind 2) (lateShutdown.take 4) = some (s, os) ∧
      udp.run s (lateShutdown.drop 4) = some (t, os') ∧ s.closed = true :=
    ⟨_, _, _, _, rfl, rfl, rfl⟩
  rcases hrun with ⟨s, os, t, os', h, h', hclosed⟩
  rcases close_returns s hclosed (lateShutdown.drop 4) t os' h' with ⟨hstays, ⟨_, _, hpushes⟩, _⟩
  exact ⟨s, os, t, os', h, h', rfl, hpushes, hstays⟩

end Udp

end ShredStream
