import ShredStream.Theory.Udp.Step

/-!
# Wake-ups

Whether a parked call of the UDP client is woken when there is something for
it to return.

`poll_next` keeps its waiter when it returns `Pending`, and the next
`poll_next` polls it again. `next_update` does not know about that waiter and
registers one of its own, behind it. A notification goes to the waiter
registered first. So when a `next_update` parks while `poll_next`'s waiter
still stands in line, the next wake-up goes to a waiter nobody polls, and the
parked call sleeps on with an update in the queue (`staleRun_sleeps`).

That is the only way to lose a wake-up. As long as no `next_update` sets out
to wait in that situation, the call that waits is the target of every
notification (`awake_of_guarded`).

## Main definitions

* `Owes`: The thread has done something it has not notified for.
* `Awake`: A parked call has nothing to return, or has been notified.
* `NotBehind`: The step does not make a `next_update` wait behind a waiter
  that `poll_next` left in line.
* `Awaits`: The invariant.

## Theorems

* `awaits_step`: The invariant is kept by such steps.
* `awake_of_guarded`: Runs of such steps lose no wake-up.
* `staleRun_sleeps`: Another run does.
-/

namespace ShredStream

namespace Udp

open Codec UdpClient Notify

/-- The thread has pushed, or has closed the client, and the notification is
    still to come. -/
def Owes (s : UdpClient) : Prop :=
  s.thread = .count ∨ s.thread = .notify ∨ s.thread = .shutNotify

/-- The waiter the parked call is waiting on: its own for `next_update`, the
    client's for a `poll_next` that returned `Pending`. -/
def parkedOn (s : UdpClient) : Option Nat :=
  match s.consumer with
  | .parked w => some w
  | .pending => s.waiting
  | _ => none

/-- The latest call is parked. -/
def Parked (s : UdpClient) : Prop := s.consumer = .pending ∨ ∃ w, s.consumer = .parked w

/-- When the latest call is parked and the thread owes no notification, there
    is nothing to return or the call's waiter has been notified. -/
def Awake (s : UdpClient) : Prop :=
  Parked s → ¬ Owes s → (s.queue = [] ∧ s.closed = false) ∨
    ∃ w, parkedOn s = some w ∧ w ∈ s.notify.notified

/-- Where the step is a `next_update` of an open client finding the queue
    empty, a waiter that `poll_next` left registered has been notified. -/
def NotBehind (s : UdpClient) (a : Action) : Prop :=
  a = .consumer → s.consumer = .pop .nextUpdate → s.queue = [] → s.closed = false →
    ∀ w ∈ s.waiting, w ∈ s.notify.notified

instance (s : UdpClient) (a : Action) : Decidable (NotBehind s a) :=
  inferInstanceAs (Decidable (_ → _ → _ → _ → _))

/-- The waiter the next notification is for. A `next_update` that is about to
    wait has none yet. -/
def target (s : UdpClient) : Option Nat :=
  match s.consumer with
  | .parked w => some w
  | .check .nextUpdate => if s.closed then s.waiting else none
  | .wait .nextUpdate => none
  | _ => s.waiting

/-- The waiters that futures hold. -/
def Held (s : UdpClient) (w : Nat) : Prop := s.waiting = some w ∨ s.consumer = .parked w

/-- The call has made up its mind to wait. -/
def Waits : ConsumerPc → Prop
  | .wait _ => True
  | .parked _ => True
  | .pending => True
  | _ => False

/-- Only the target stands in line; and a call that found the queue empty, or
    the client open, is signalled when that is no longer so. -/
structure Awaits (s : UdpClient) : Prop where
  lined : Lined s.notify (target s) (Held s)
  own : ∀ w, s.consumer = .parked w → s.waiting ≠ some w
  registered : s.consumer = .pending → ∃ w, s.waiting = some w
  checking : ∀ a, s.consumer = .check a → s.queue ≠ [] → Owes s ∨ Ready s.notify (target s)
  signalled : Waits s.consumer → (s.queue ≠ [] ∨ s.closed = true) →
    Owes s ∨ Ready s.notify (target s)

/-- The call does not wait and is not about to. -/
def Busy : ConsumerPc → Prop
  | .check _ => False
  | .wait _ => False
  | .parked _ => False
  | .pending => False
  | _ => True

theorem target_busy (s : UdpClient) (h : Busy s.consumer) : target s = s.waiting := by
  unfold target
  cases hc : s.consumer <;> rw [hc] at h <;> first | rfl | exact h.elim

theorem held_busy (s : UdpClient) (h : Busy s.consumer) (w : Nat) (hw : Held s w) :
    s.waiting = some w := by
  rcases hw with hw | hw
  · exact hw
  · rw [hw] at h
    exact h.elim

/-- For a busy call only the line matters. -/
theorem awaits_of_busy (s : UdpClient) (hb : Busy s.consumer)
    (hl : Lined s.notify s.waiting (fun w => s.waiting = some w)) : Awaits s := by
  refine ⟨?_, fun w hc => ?_, fun hc => ?_, fun a hc => ?_, fun hw => ?_⟩
  · rw [target_busy s hb]
    exact lined_retarget _ _ _ _ _ hl (Or.inr rfl) (held_busy s hb)
  · rw [hc] at hb
    exact hb.elim
  · rw [hc] at hb
    exact hb.elim
  · rw [hc] at hb
    exact hb.elim
  · revert hb hw
    cases s.consumer <;> intro hb hw <;> first | exact hb.elim | exact hw.elim

/-- A waiting `poll_next` that turns busy, or a busy call that stays so, leaves
    the line as it is. -/
theorem lined_waiting (s : UdpClient) (h : Awaits s) (ht : target s = s.waiting) :
    Lined s.notify s.waiting (fun w => s.waiting = some w) := by
  have hl := h.lined
  rw [ht] at hl
  exact lined_retarget _ _ _ _ _ hl (Or.inr rfl) (fun w hw => Or.inl hw)

theorem awaits_bind (queueCapacity : Nat) : Awaits (bind queueCapacity) := by
  refine awaits_of_busy _ trivial ⟨fun _ => rfl, Or.inl rfl, fun w hw => ?_, fun w hw => ?_,
    fun w hw => ?_⟩
  · cases hw
  · exact absurd hw List.not_mem_nil
  · rcases hw with hw | hw <;> exact absurd hw List.not_mem_nil

/-- Steps of a thread that owes nothing before them and touches nothing that is
    shared. -/
theorem awaits_quiet (s : UdpClient) (pc : ThreadPc) (decoder : StreamDecoder) (h : Awaits s)
    (hidle : ¬ Owes s) : Awaits { s with thread := pc, decoder := decoder } :=
  ⟨h.lined, h.own, h.registered,
    fun a hc hq => Or.inr ((h.checking a hc hq).resolve_left hidle),
    fun hw hq => Or.inr ((h.signalled hw hq).resolve_left hidle)⟩

/-- Steps after which the thread owes a notification. -/
theorem awaits_owing (s s' : UdpClient) (h : Awaits s) (howes : Owes s')
    (hnotify : s'.notify = s.notify) (hconsumer : s'.consumer = s.consumer)
    (hwaiting : s'.waiting = s.waiting) (hclosed : s'.closed = s.closed ∨ s'.closed = true) :
    Awaits s' := by
  have hheld : ∀ w, Held s' w → Held s w := by
    intro w hw
    rwa [Held, hconsumer, hwaiting] at hw
  -- Setting the flag makes the kept waiter of a checking `next_update` the
  -- target, where there was none.
  have htarget : target s' = target s ∨ target s = none := by
    unfold target
    rw [hconsumer, hwaiting]
    split
    · exact Or.inl rfl
    · rcases hclosed with hc | hc
      · rw [hc]
        exact Or.inl rfl
      · rw [hc]
        cases s.closed with
        | false => exact Or.inr rfl
        | true => exact Or.inl rfl
    · exact Or.inl rfl
    · exact Or.inl rfl
  refine ⟨?_, ?_, ?_, fun _ _ _ => Or.inl howes, fun _ _ => Or.inl howes⟩
  · -- Without a target nobody stood in line, so a new one is harmless.
    rw [hnotify]
    refine lined_retarget _ (target s) _ (Held s) _ h.lined ?_ hheld
    rcases htarget with heq | hnone
    · exact Or.inr heq
    · exact Or.inl (waiters_of_none s.notify (Held s) (hnone ▸ h.lined))
  · rw [hconsumer, hwaiting]
    exact h.own
  · rw [hconsumer, hwaiting]
    exact h.registered

/-- Notifying: whatever the call waits for, it is signalled. -/
theorem awaits_notify (s : UdpClient) (pc : ThreadPc) (h : Awaits s) :
    Awaits { s with notify := s.notify.notifyOne, thread := pc } := by
  have hn := lined_notifyOne s.notify (target s) (Held s) h.lined
  exact ⟨hn.1, h.own, h.registered, fun _ _ _ => Or.inr hn.2, fun _ _ => Or.inr hn.2⟩

/-- The first pop: an update for the call, or the call goes on to the flag. A
    `next_update` that goes on must not leave another waiter in line. -/
theorem awaits_pop (s : UdpClient) (a : Waiting) (h : Awaits s) (hc : s.consumer = .pop a)
    (hguard : NotBehind s .consumer) : Awaits (s.stepPop a).1 := by
  have hb : Busy s.consumer := by
    rw [hc]
    trivial
  have hl := lined_waiting s h (target_busy s hb)
  unfold stepPop
  rcases hq : s.queue with _ | ⟨u, rest⟩
  · -- The call goes on to the flag. If it finds the client open, a
    -- `next_update` has no target until it registers.
    have hlined : Lined s.notify (target { s with consumer := .check a })
        (Held { s with consumer := .check a }) := by
      refine lined_retarget _ s.waiting _ _ _ hl ?_ (fun w hw => hw.resolve_right (by simp))
      cases a with
      | pollNext => exact Or.inr rfl
      | nextUpdate =>
          cases hclosed : s.closed with
          | true =>
              right
              simp only [target, if_true]
          | false =>
              left
              rcases hw : s.waiting with _ | w
              · rw [hw] at hl
                exact waiters_of_none s.notify _ hl
              · -- The guard: this waiter has been notified.
                have hnotified : w ∈ s.notify.notified := hguard rfl hc hq hclosed w hw
                rw [hw] at hl
                exact waiters_of_notified s.notify w _ hl hnotified
    -- The queue is empty, so there is nothing to be signalled for yet.
    exact ⟨hlined, nofun, nofun, fun _ _ hne => absurd rfl hne, fun hw => hw.elim⟩
  · cases a <;> exact awaits_of_busy _ trivial hl

/-- `poll_next` lets go of its waiter. -/
theorem awaits_release (s : UdpClient) (h : Awaits s) (hc : s.consumer = .release) :
    Awaits s.release := by
  have hb : Busy s.consumer := by
    rw [hc]
    trivial
  have hl := lined_waiting s h (target_busy s hb)
  refine awaits_of_busy _ trivial ?_
  unfold release
  rcases hw : s.waiting with _ | w
  · rw [hw] at hl
    exact hl
  · rw [hw] at hl
    refine lined_retarget _ none _ _ _ (lined_drop s.notify w none _ hl) (Or.inr rfl) ?_
    intro v hv
    cases hv

/-- The call looks at the flag: it will pop once more, or wait. -/
theorem awaits_check (s : UdpClient) (a : Waiting) (h : Awaits s) (hc : s.consumer = .check a) :
    Awaits { s with consumer := if s.closed then .last a else .wait a } := by
  by_cases hclosed : s.closed = true
  · rw [if_pos hclosed]
    have ht : target s = s.waiting := by
      unfold target
      rw [hc]
      cases a with
      | nextUpdate => exact if_pos hclosed
      | pollNext => rfl
    exact awaits_of_busy _ trivial (lined_waiting s h ht)
  · rw [if_neg hclosed]
    have ht : target { s with consumer := .wait a } = target s := by
      unfold target
      rw [hc]
      cases a with
      | nextUpdate => exact (if_neg hclosed).symm
      | pollNext => rfl
    refine ⟨?_, nofun, nofun, nofun, ?_⟩
    · refine lined_retarget _ _ _ _ _ h.lined (Or.inr ht) (fun w hw => Or.inl ?_)
      exact hw.resolve_right (by simp only [reduceCtorEq, not_false_eq_true])
    · -- Whatever came into the queue since the pop has signalled the call.
      rintro _ (hq | hq)
      · rw [ht]
        exact h.checking a hc hq
      · exact absurd hq hclosed

/-- Whatever the last pop finds, the call returns. -/
theorem awaits_lastPop (s : UdpClient) (c : Call) (h : Awaits s) (hb : Busy s.consumer) :
    Awaits (s.lastPop c).1 := by
  have hl := lined_waiting s h (target_busy s hb)
  unfold lastPop
  split <;> exact awaits_of_busy _ trivial hl

/-- A `next_update` takes the permit, or registers a waiter of its own. -/
theorem awaits_wait_nextUpdate (s : UdpClient) (h : Awaits s)
    (hc : s.consumer = .wait .nextUpdate) : Awaits (s.stepWait .nextUpdate).1 := by
  have ht : target s = none := by
    rw [target, hc]
  have hl := h.lined
  rw [ht] at hl
  by_cases hp : s.notify.permit = true
  · -- The permit lets the call go around its loop.
    simp only [stepWait, register_permit s.notify hp]
    refine awaits_of_busy _ trivial ?_
    exact lined_retarget _ none _ _ _ (lined_take s.notify none _ hl hp)
      (Or.inl (h.lined.permit_idle hp)) (fun w hw => Or.inl hw)
  · simp only [stepWait, register_wait s.notify hp]
    rcases lined_register s.notify (Held s) hl hp with ⟨hnew, hne⟩
    refine ⟨?_, ?_, nofun, nofun, ?_⟩
    · refine lined_retarget _ _ _ _ _ hnew (Or.inr rfl) ?_
      rintro w (hw | hw)
      · exact Or.inl (Or.inl hw)
      · exact Or.inr (ConsumerPc.parked.inj hw).symm
    · -- The new waiter's number is not one that was given before.
      rintro w hw hwaiting
      cases hw
      exact hne _ (Or.inl hwaiting) rfl
    · -- Without a permit, something to return means a notification to come.
      intro _ hq
      have hsig := h.signalled (by rw [hc]; trivial) hq
      rw [ht] at hsig
      rcases hsig with ho | hready | ⟨w, hw, _⟩
      · exact Or.inl ho
      · exact absurd hready hp
      · cases hw

/-- A `poll_next` polls the waiter it kept, or else does as `next_update`
    does and keeps the waiter. -/
theorem awaits_wait_pollNext (s : UdpClient) (h : Awaits s)
    (hc : s.consumer = .wait .pollNext) : Awaits (s.stepWait .pollNext).1 := by
  have ht : target s = s.waiting := by
    rw [target, hc]
  have hl := lined_waiting s h ht
  have hsig := h.signalled (by rw [hc]; trivial)
  rw [ht] at hsig
  rcases hw : s.waiting with _ | w
  · rw [hw] at hl hsig
    by_cases hp : s.notify.permit = true
    · simp only [stepWait, hw, register_permit s.notify hp]
      refine awaits_of_busy _ trivial ?_
      exact lined_take s.notify none _ hl hp
    · simp only [stepWait, hw, register_wait s.notify hp]
      rcases lined_register s.notify _ hl hp with ⟨hnew, _⟩
      refine ⟨?_, nofun, fun _ => ⟨s.notify.next, rfl⟩, nofun, ?_⟩
      · refine lined_retarget _ _ _ _ _ hnew (Or.inr rfl) ?_
        rintro v (hv | hv)
        · exact Or.inr (Option.some.inj hv).symm
        · cases hv
      · -- No permit was there, so the thread owes what the call could miss.
        intro _ hq
        rcases hsig hq with ho | hready | ⟨v, hv, _⟩
        · exact Or.inl ho
        · exact absurd hready hp
        · cases hv
  · rw [hw] at hl hsig
    by_cases hn : w ∈ s.notify.notified
    · -- The waiter is spent and let go of.
      simp only [stepWait, hw, poll_notified s.notify w hn]
      refine awaits_of_busy _ trivial ?_
      refine lined_retarget _ none _ _ _ (lined_poll s.notify w none _ hl hn) (Or.inr rfl) ?_
      intro v hv
      cases hv
    · -- It stays registered, and whatever signals it is still to come.
      simp only [stepWait, hw, poll_waiting s.notify w hn]
      refine ⟨?_, nofun, fun _ => ⟨w, rfl⟩, nofun, fun _ hq => hsig hq⟩
      refine lined_retarget _ _ _ _ _ hl (Or.inr rfl) ?_
      rintro v (hv | hv)
      · exact hv
      · cases hv

/-- A parked `next_update` is polled after it was notified. -/
theorem awaits_woken (s : UdpClient) (w : Nat) (h : Awaits s) (hc : s.consumer = .parked w)
    (hw : w ∈ s.notify.notified) :
    Awaits { s with notify := (s.notify.poll w).1, consumer := .pop .nextUpdate } := by
  have hl := h.lined
  have ht : target s = some w := by
    rw [target, hc]
  rw [ht] at hl
  rw [poll_notified s.notify w hw]
  refine awaits_of_busy _ trivial ?_
  refine lined_retarget _ _ _ _ _ (lined_poll s.notify w s.waiting _ hl hw) (Or.inr rfl) ?_
  exact fun v hv => ⟨Or.inl hv, fun heq => h.own w hc (heq ▸ hv)⟩

/-- A parked `next_update` is dropped. -/
theorem awaits_dropCall (s : UdpClient) (w : Nat) (h : Awaits s) (hc : s.consumer = .parked w) :
    Awaits { s with notify := s.notify.drop w, consumer := .idle } := by
  have hl := h.lined
  have ht : target s = some w := by
    rw [target, hc]
  rw [ht] at hl
  refine awaits_of_busy _ trivial ?_
  refine lined_retarget _ _ _ _ _ (lined_drop s.notify w s.waiting _ hl) (Or.inr rfl) ?_
  exact fun v hv => ⟨Or.inl hv, fun heq => h.own w hc (heq ▸ hv)⟩

/-- A step that does not put a `next_update` behind another waiter keeps the
    invariant. -/
theorem awaits_step (s : UdpClient) (a : Action) (r : UdpClient × List Output) (h : Awaits s)
    (hguard : NotBehind s a) (hm : Moves s a r) : Awaits r.1 := by
  have hbusy : Busy s.consumer → Lined s.notify s.waiting (fun w => s.waiting = some w) :=
    fun hb => lined_waiting s h (target_busy s hb)
  cases hm with
  | check ht | timeout ht | failed ht =>
      exact awaits_quiet s _ s.decoder h (by rw [Owes, ht]; simp only [reduceCtorEq, or_self,
        not_false_eq_true])
  | decode now bytes ht =>
      have hidle : ¬ Owes s := by
        rw [Owes, ht]
        simp only [reduceCtorEq, or_self, not_false_eq_true]
      rcases decode_cases s now bytes with ⟨u, _, hd⟩ | ⟨_, hd⟩ <;>
        · rw [hd]
          exact awaits_quiet s _ _ h hidle
  | push u ht =>
      unfold pushUpdate
      split
      · exact awaits_owing s _ h (Or.inr (Or.inl rfl)) rfl rfl rfl (Or.inl rfl)
      · exact awaits_owing s _ h (Or.inl rfl) rfl rfl rfl (Or.inl rfl)
  | count ht => exact awaits_owing s _ h (Or.inr (Or.inl rfl)) rfl rfl rfl (Or.inl rfl)
  | shutStore ht => exact awaits_owing s _ h (Or.inr (Or.inr rfl)) rfl rfl rfl (Or.inr rfl)
  | notify ht | shutNotify ht => exact awaits_notify s _ h
  | call c hc =>
      have ht : target s = s.waiting := by
        unfold target
        rcases hc with hc | hc <;> rw [hc]
      have hl := lined_waiting s h ht
      rcases c with a | _ | _ <;> exact awaits_of_busy _ trivial hl
  | pop a hc => exact awaits_pop s a h hc hguard
  | release hc => exact awaits_release s h hc
  | checkClosed a hc => exact awaits_check s a h hc
  | last a hc => exact awaits_lastPop s _ h (by rw [hc]; trivial)
  | tryPop hc => exact awaits_lastPop s _ h (by rw [hc]; trivial)
  | wait a hc =>
      cases a with
      | nextUpdate => exact awaits_wait_nextUpdate s h hc
      | pollNext => exact awaits_wait_pollNext s h hc
  | woken w hc hw => exact awaits_woken s w h hc hw
  | spurious => exact h
  | closeStore hc => exact awaits_of_busy _ trivial (hbusy (by rw [hc]; trivial))
  | join hc => exact awaits_of_busy _ trivial (hbusy (by rw [hc]; trivial))
  | dropCall w hc => exact awaits_dropCall s w h hc

/-- What the invariant says about a parked call. -/
theorem awake_of_awaits (s : UdpClient) (h : Awaits s) : Awake s := by
  intro hparked howes
  have hon : parkedOn s = target s ∧ ∃ w, target s = some w ∧ Held s w := by
    rcases hparked with hc | ⟨w, hc⟩
    · rcases h.registered hc with ⟨w, hw⟩
      rw [parkedOn, target, hc]
      exact ⟨rfl, w, hw, Or.inl hw⟩
    · rw [parkedOn, target, hc]
      exact ⟨rfl, w, rfl, Or.inr hc⟩
  rcases hon with ⟨hon, w, hw, hheld⟩
  have hwaits : Waits s.consumer := by
    rcases hparked with hc | ⟨w, hc⟩ <;>
      · rw [hc]
        trivial
  by_cases hnothing : s.queue = [] ∧ s.closed = false
  · exact Or.inl hnothing
  have hsome : s.queue ≠ [] ∨ s.closed = true := by
    rw [not_and_or, Bool.not_eq_false] at hnothing
    exact hnothing
  refine Or.inr ⟨w, hon.trans hw, ?_⟩
  rcases (h.signalled hwaits hsome).resolve_left howes with hp | ⟨v, hv, hin⟩
  · -- A permit is stored only when nobody stands in line, so the waiter held
    -- has been notified.
    rcases h.lined.known w hheld with hin | hline
    · exact hin
    · rw [h.lined.permit_idle hp] at hline
      cases hline
  · rw [hw, Option.some.injEq] at hv
    rwa [hv]

/-- In every run whose steps never put a `next_update` behind a waiter of
    `poll_next`, no wake-up is lost. -/
theorem awake_of_guarded (queueCapacity : Nat) (inputs : List Action) (t : UdpClient)
    (os : List Output) (hrun : udp.run (bind queueCapacity) inputs = some (t, os))
    (hguard : udp.Guarded NotBehind (bind queueCapacity) inputs) : Awake t :=
  awake_of_awaits t (Machine.guarded_invariant udp NotBehind Awaits
    (fun s a s' new hs hg hstep => awaits_step s a _ hs hg (moves_of_step s a (s', new) hstep))
    inputs (bind queueCapacity) t os (awaits_bind queueCapacity) hguard hrun)

/-- A one-fragment transaction. -/
def oneTransaction : Bytes :=
  [0xE7, 0x5A, 2, 2, 0, 0, 1, 0, 0, 0, 0, 0, 0, 0, 0, 0, 7, 0, 0, 0, 0, 0, 0, 0]

/-- A `poll_next` parks; the thread pushes and notifies. -/
def polledRun : List Action :=
  [.call (.wait .pollNext), .consumer, .consumer, .consumer,
   .thread, .recv (.datagram 5 oneTransaction), .thread, .thread]

/-- The parked `poll_next` is woken. -/
theorem polledRun_awake : ∃ t os, udp.run (bind 4) polledRun = some (t, os) ∧
    t.queue.length = 1 ∧ Awake t := by
  refine ⟨_, _, rfl, rfl, awake_of_guarded 4 polledRun _ _ rfl ?_⟩
  decide

/-- A `poll_next` returns `Pending`, a `next_update` parks behind its waiter,
    and a transaction arrives. -/
def staleRun : List Action :=
  [.call (.wait .pollNext), .consumer, .consumer, .consumer,
   .call (.wait .nextUpdate), .consumer, .consumer, .consumer,
   .thread, .recv (.datagram 5 oneTransaction), .thread, .thread]

/-- The notification goes to the waiter nobody polls: the parked call sleeps on
    with an update in the queue. -/
theorem staleRun_sleeps : ∃ t os, udp.run (bind 4) staleRun = some (t, os) ∧
    t.queue.length = 1 ∧ ¬ Awake t := by
  refine ⟨_, _, rfl, rfl, fun h => ?_⟩
  rcases h (Or.inr ⟨1, rfl⟩) (by simp [Owes]) with ⟨hq, _⟩ | ⟨w, hw, hin⟩
  · cases hq
  · cases hw
    revert hin
    decide

end Udp

end ShredStream
