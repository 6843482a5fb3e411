import ShredStream.Core.Hook
import ShredStream.Theory.Frame.Malformed
import ShredStream.Theory.Udp.Ledger

/-!
# A Client with its Socket

`UdpClient::bind` hands the receive thread the counters its socket has left,
with the size of the receive buffer in them. Nothing either party does depends
on a counter, so the client runs as if the counters were new; and no step
writes the size, so it can be read off them at any time.

## Main definitions

* `UdpClient.withStats`: The client with other counters.
* `firedBy`: The notices a run fires.
* `Quiet`: A step that has nothing to do with datagrams.
* `ThreadPc.Leaving`: The thread has left its loop.

## Theorems

* `push_notices`: A push fires a notice exactly when it is an error.
* `step_withStats`, `run_withStats`: The counters do not matter.
* `bindOn_ok`: What an opened client is.
* `bindOn_run`: An opened client runs like one without a socket.
* `decodes_or_quiet`: Which steps have to do with datagrams.
* `recvBuffer_run`: The size of the buffer is never written.
* `leaving_run`: A thread that has left its loop.
-/

namespace ShredStream

namespace Udp

open Codec StreamDecoder UdpClient BoundedFifo

/-- The client with other counters. -/
def UdpClient.withStats (s : UdpClient) (x : Stats) : UdpClient :=
  { s with decoder := { s.decoder with stats := x } }

/-- A push fires a notice exactly when it is an error. -/
theorem push_notices (d : StreamDecoder) (now : SystemTime) (b : Bytes) :
    (d.push now b).notices = match (d.push now b).result with
      | .error _ => [.decodeError]
      | _ => [] := by
  have hcomplete : ∀ (d' : StreamDecoder) (whole : Bytes),
      (d'.complete now whole).notices = match (d'.complete now whole).result with
        | .error _ => [.decodeError]
        | _ => [] := by
    intro d' whole
    unfold complete
    split <;> rfl
  have hp := push_pushes d now b
  generalize d.push now b = r at hp ⊢
  cases hp with
  | rejected | other | misfit | first | broken | more => rfl
  | lone | last => exact hcomplete _ _

/-- A push with other counters differs in the counters only. -/
theorem push_withStats (d : StreamDecoder) (x : Stats) (now : SystemTime) (b : Bytes) :
    ∃ y, ({ d with stats := x } : StreamDecoder).push now b
      = { d.push now b with decoder := { (d.push now b).decoder with stats := y } } := by
  rcases push_congr { d with stats := x } d now b rfl with ⟨hresult, hreasm⟩
  have hnotices := push_notices { d with stats := x } now b
  rw [hresult, ← push_notices] at hnotices
  refine ⟨(({ d with stats := x } : StreamDecoder).push now b).decoder.stats, ?_⟩
  rcases hpush : ({ d with stats := x } : StreamDecoder).push now b with ⟨⟨stats, reasm⟩, res, ns⟩
  rw [hpush] at hresult hreasm hnotices
  simp only at hresult hreasm hnotices
  rw [hresult, hreasm, hnotices]

/-- The counters do not matter to what is decoded. -/
theorem decode_withStats (s : UdpClient) (x : Stats) (now : SystemTime) (bytes : Bytes) :
    ∃ y, (s.withStats x).decode now bytes
      = ((s.decode now bytes).1.withStats y, (s.decode now bytes).2) := by
  rcases push_withStats s.decoder x now bytes with ⟨y, hy⟩
  refine ⟨y, ?_⟩
  unfold decode
  rw [show (s.withStats x).decoder = { s.decoder with stats := x } from rfl, hy]
  simp only
  cases (s.decoder.push now bytes).result with
  | update u => rfl
  | skipped | error e => rfl

/-- The consumer leaves the counters alone. -/
theorem stepConsumer_withStats (s : UdpClient) (x : Stats) :
    (s.withStats x).stepConsumer = s.stepConsumer.map (fun r => (r.1.withStats x, r.2)) := by
  unfold stepConsumer
  rw [show (s.withStats x).consumer = s.consumer from rfl]
  cases hconsumer : s.consumer with
  | idle | pending | release | check a | closeStore => rfl
  | pop a =>
      simp only [stepPop, Option.map_some]
      rw [show (s.withStats x).queue = s.queue from rfl]
      rcases pop s.queue with ⟨queue, _ | u⟩
      · rfl
      · cases a <;> rfl
  | last a | tryPop =>
      simp only [lastPop, Option.map_some]
      rw [show (s.withStats x).queue = s.queue from rfl]
      rcases pop s.queue with ⟨queue, _ | u⟩ <;> rfl
  | wait a =>
      simp only [stepWait, Option.map_some]
      rw [show (s.withStats x).notify = s.notify from rfl,
        show (s.withStats x).waiting = s.waiting from rfl]
      repeat' split
      all_goals rfl
  | parked w =>
      simp only
      rw [show (s.withStats x).notify = s.notify from rfl]
      rcases s.notify.poll w with ⟨n, _ | _⟩ <;> rfl
  | join =>
      simp only
      rw [show (s.withStats x).thread = s.thread from rfl]
      split <;> rfl

/-- The counters do not matter to a step. -/
theorem step_withStats (s : UdpClient) (x : Stats) (a : Action) (r : UdpClient × List Output)
    (h : udp.step s a = some r) :
    ∃ y, udp.step (s.withStats x) a = some (r.1.withStats y, r.2) := by
  cases a with
  | recv received =>
      simp only [udp, step, stepRecv] at h ⊢
      rw [show (s.withStats x).thread = s.thread from rfl]
      split at h
      · rename_i hrecv
        rw [if_pos hrecv]
        cases received with
        | timeout | failed =>
            cases h
            exact ⟨x, rfl⟩
        | datagram now bytes =>
            cases h
            rcases decode_withStats s x now bytes with ⟨y, hy⟩
            exact ⟨y, congrArg some hy⟩
      · cases h
  | thread =>
      simp only [udp, step, stepThread] at h ⊢
      rw [show (s.withStats x).thread = s.thread from rfl]
      cases hthread : s.thread with
      | recv | done =>
          rw [hthread] at h
          cases h
      | push u =>
          rw [hthread] at h
          cases h
          refine ⟨x, congrArg some ?_⟩
          simp only [pushUpdate]
          rw [show (s.withStats x).capacity = s.capacity from rfl,
            show (s.withStats x).queue = s.queue from rfl]
          rcases forcePush s.capacity s.queue u with ⟨queue, _ | old⟩ <;> rfl
      | count =>
          rw [hthread] at h
          cases h
          exact ⟨_, rfl⟩
      | check | notify | shutStore | shutNotify =>
          rw [hthread] at h
          cases h
          exact ⟨x, rfl⟩
  | call c =>
      simp only [udp, step, stepCall] at h ⊢
      rw [show (s.withStats x).consumer = s.consumer from rfl]
      split at h
      · rename_i hidle
        rw [if_pos hidle]
        cases h
        exact ⟨x, rfl⟩
      · cases h
  | consumer =>
      simp only [udp, step] at h ⊢
      rw [stepConsumer_withStats, h]
      exact ⟨x, rfl⟩
  | dropCall =>
      simp only [udp, step, stepDrop] at h ⊢
      rw [show (s.withStats x).consumer = s.consumer from rfl]
      cases hconsumer : s.consumer with
      | parked w =>
          rw [hconsumer] at h
          cases h
          exact ⟨x, rfl⟩
      | _ =>
          rw [hconsumer] at h
          cases h

/-- The counters do not matter to a run. -/
theorem run_withStats (inputs : List Action) : ∀ (s t : UdpClient) (x : Stats) (os : List Output),
    udp.run s inputs = some (t, os) →
      ∃ y, udp.run (s.withStats x) inputs = some (t.withStats y, os) := by
  induction inputs with
  | nil =>
      intro s t x os h
      simp only [Machine.run_nil, Option.some.injEq, Prod.mk.injEq] at h
      rcases h with ⟨rfl, rfl⟩
      exact ⟨x, rfl⟩
  | cons a inputs ih =>
      intro s t x os h
      rcases Machine.run_cons udp s t a inputs os h with ⟨s', os₁, os₂, hstep, hrest, rfl⟩
      rcases step_withStats s x a (s', os₁) hstep with ⟨x', hstep'⟩
      rcases ih s' t x' os₂ hrest with ⟨y, hrest'⟩
      refine ⟨y, ?_⟩
      rw [Machine.run_cons_of_step udp _ _ a inputs os₁ hstep', hrest']
      rfl

/-! ### Opening a client -/

variable {ε : Type}

/-- What a socket that was set up leaves in the counters, and what it fired. -/
theorem bindSocket_ok (calls : SocketCalls ε) (cfg : UdpConfig) (r : Stats × List Notice)
    (h : bindSocket calls cfg = .ok r) :
    r = ({ recvBufferBytes := UInt64.ofNat calls.effective },
      if calls.effective < cfg.recvBufferBytes then
        [.recvBufferClamped cfg.recvBufferBytes calls.effective]
      else []) := by
  simp only [bindSocket] at h
  rcases hnew : calls.new ⟨cfg.host, cfg.port⟩ with e | ⟨⟩ <;> rw [hnew] at h
  · cases h
  rcases hsize : calls.setRecvBufferSize cfg.recvBufferBytes with e | ⟨⟩ <;> rw [hsize] at h
  · cases h
  rcases hbind : calls.bind ⟨cfg.host, cfg.port⟩ with e | ⟨⟩ <;> rw [hbind] at h
  · cases h
  cases h
  rfl

/-- An opened client has the queue that was asked for and the counters of its
    socket, and the notices of the socket have been fired. -/
theorem bindOn_ok (calls : SocketCalls ε) (cfg : UdpConfig) (b : Bound)
    (h : bindOn calls cfg = .ok b) :
    ∃ stats, bindSocket calls cfg = .ok (stats, b.fired) ∧
      b.client = (bind cfg.queueCapacity).withStats stats := by
  simp only [bindOn] at h
  rcases hsocket : bindSocket calls cfg with e | ⟨stats, fired⟩ <;> rw [hsocket] at h
  · cases h
  rcases htimeout : calls.setReadTimeout 50 with e | ⟨⟩ <;> rw [htimeout] at h
  · cases h
  rcases haddr : calls.localAddr with e | addr <;> rw [haddr] at h
  · cases h
  cases h
  exact ⟨stats, rfl, rfl⟩

/-- An opened client runs like one without a socket. -/
theorem bindOn_run (calls : SocketCalls ε) (cfg : UdpConfig) (b : Bound)
    (hb : bindOn calls cfg = .ok b) (inputs : List Action) (t : UdpClient) (os : List Output)
    (h : udp.run b.client inputs = some (t, os)) :
    ∃ y, udp.run (bind cfg.queueCapacity) inputs = some (t.withStats y, os) := by
  rcases bindOn_ok calls cfg b hb with ⟨stats, _, hclient⟩
  rw [hclient] at h
  -- Giving the counters back is giving it other counters once more.
  exact run_withStats inputs _ t {} os h

/-! ### The size of the receive buffer -/

theorem push_recvBuffer (d : StreamDecoder) (now : SystemTime) (b : Bytes) :
    (d.push now b).decoder.stats.recvBufferBytes = d.stats.recvBufferBytes := by
  have hcomplete : ∀ (d' : StreamDecoder) (whole : Bytes),
      (d'.complete now whole).decoder.stats.recvBufferBytes = d'.stats.recvBufferBytes := by
    intro d' whole
    unfold complete
    split <;> rfl
  have hp := push_pushes d now b
  generalize d.push now b = r at hp ⊢
  cases hp with
  | rejected | other | misfit | first | broken | more => rfl
  | lone | last => exact hcomplete _ _

/-- The notices among the outputs. -/
def firedBy (os : List Output) : List Notice := os.filterMap report

@[simp] theorem firedBy_append (os new : List Output) :
    firedBy (os ++ new) = firedBy os ++ firedBy new := List.filterMap_append

/-- A step that has nothing to do with datagrams: it may count a drop, and
    leaves everything else about the decoder as it is. -/
structure Quiet (s : UdpClient) (a : Action) (r : UdpClient × List Output) : Prop where
  input : ∀ now bytes, a ≠ .recv (.datagram now bytes)
  produced : producedOf r.2 = []
  fired : firedBy r.2 = []
  stats : r.1.decoder.stats
    = { s.decoder.stats with queueDropped := r.1.decoder.stats.queueDropped }
  reasm : r.1.decoder.reasm = s.decoder.reasm

/-- A step decodes a datagram, or has nothing to do with datagrams. -/
theorem decodes_or_quiet (s : UdpClient) (a : Action) (r : UdpClient × List Output)
    (hm : Moves s a r) :
    (∃ now bytes, a = .recv (.datagram now bytes) ∧ r = s.decode now bytes) ∨ Quiet s a r := by
  cases hm with
  | decode now bytes _ => exact Or.inl ⟨now, bytes, rfl, rfl⟩
  | push u _ =>
      right
      unfold pushUpdate
      rcases forcePush s.capacity s.queue u with ⟨queue, _ | old⟩ <;>
        exact ⟨nofun, rfl, rfl, rfl, rfl⟩
  | pop a _ =>
      right
      unfold stepPop
      rcases pop s.queue with ⟨queue, _ | u⟩
      · exact ⟨nofun, rfl, rfl, rfl, rfl⟩
      · cases a <;> exact ⟨nofun, rfl, rfl, rfl, rfl⟩
  | last a _ | tryPop _ =>
      right
      unfold lastPop
      rcases pop s.queue with ⟨queue, _ | u⟩ <;> exact ⟨nofun, rfl, rfl, rfl, rfl⟩
  | wait a _ =>
      right
      unfold stepWait
      repeat' split
      all_goals exact ⟨nofun, rfl, rfl, rfl, rfl⟩
  | check _ | timeout _ | failed _ | count _ | notify _ | shutStore _ | shutNotify _ | call _ _
  | release _ | checkClosed _ _ | woken _ _ _ | spurious _ _ _ | closeStore _ | join _ _
  | dropCall _ _ => exact Or.inr ⟨nofun, rfl, rfl, rfl, rfl⟩

/-- No step writes the size. -/
theorem recvBuffer_run (s t : UdpClient) (inputs : List Action) (os : List Output)
    (h : udp.run s inputs = some (t, os)) :
    t.decoder.stats.recvBufferBytes = s.decoder.stats.recvBufferBytes := by
  refine run_moves (fun _ u _ => u.decoder.stats.recvBufferBytes = s.decoder.stats.recvBufferBytes)
    (fun _ u _ a r hu hm => ?_) s t inputs os rfl h
  rcases decodes_or_quiet u a r hm with ⟨now, bytes, rfl, rfl⟩ | hquiet
  · rcases decode_cases u now bytes with ⟨_, _, hd⟩ | ⟨_, hd⟩ <;> rw [hd] <;>
      exact (push_recvBuffer u.decoder now bytes).trans hu
  · rw [hquiet.stats]
    exact hu

/-! ### Behind the loop -/

/-- The thread has left its loop. -/
def ThreadPc.Leaving : ThreadPc → Prop
  | .shutStore => True
  | .shutNotify => True
  | .done => True
  | _ => False

/-- A thread that has left its loop does not come back: it decodes nothing and
    receives nothing. -/
theorem leaving_step (s : UdpClient) (a : Action) (r : UdpClient × List Output)
    (h : s.thread.Leaving) (hm : Moves s a r) :
    r.1.thread.Leaving ∧ producedOf r.2 = [] ∧ ∀ x, a ≠ .recv x := by
  cases hm with
  | check ht | push _ ht | count ht | notify ht | timeout ht | failed ht | decode _ _ ht =>
      rw [ht] at h
      exact h.elim
  | shutStore ht | shutNotify ht => exact ⟨trivial, rfl, nofun⟩
  | pop a _ =>
      unfold stepPop
      rcases pop s.queue with ⟨queue, _ | u⟩
      · exact ⟨h, rfl, nofun⟩
      · cases a <;> exact ⟨h, rfl, nofun⟩
  | last a _ | tryPop _ =>
      unfold lastPop
      rcases pop s.queue with ⟨queue, _ | u⟩ <;> exact ⟨h, rfl, nofun⟩
  | wait a _ =>
      unfold stepWait
      repeat' split
      all_goals exact ⟨h, rfl, nofun⟩
  | call _ _ | release _ | checkClosed _ _ | woken _ _ _ | spurious _ _ _ | closeStore _
  | join _ _ | dropCall _ _ => exact ⟨h, rfl, nofun⟩

theorem leaving_run (s t : UdpClient) (inputs : List Action) (os : List Output)
    (hs : s.thread.Leaving) (h : udp.run s inputs = some (t, os)) :
    t.thread.Leaving ∧ producedOf os = [] ∧ ∀ x, .recv x ∉ inputs := by
  refine run_moves (fun inputs u os => u.thread.Leaving ∧ producedOf os = [] ∧
    ∀ x, .recv x ∉ inputs) (fun before u os a r hu hm => ?_) s t inputs os
    ⟨hs, rfl, fun x hx => by cases hx⟩ h
  rcases leaving_step u a r hu.1 hm with ⟨hnext, hnew, hnone⟩
  refine ⟨hnext, by rw [producedOf_append, hu.2.1, hnew, List.append_nil], fun x hx => ?_⟩
  rcases List.mem_append.mp hx with hx | hx
  · exact hu.2.2 x hx
  · exact hnone x (List.mem_singleton.mp hx).symm

end Udp

end ShredStream
