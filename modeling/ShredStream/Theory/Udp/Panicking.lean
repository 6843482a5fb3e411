import ShredStream.Theory.Udp.EndToEnd
import ShredStream.Theory.Udp.Feed

/-!
# Callbacks that Panic

What is left of a UDP client whose callback panics. The receive thread is gone,
with the decoder and whatever fragments it had; but the guard that the source
puts up before its loop runs when the thread unwinds, so the consumer is told.

Nothing else has to be argued about it. A panic can only come where an error
was counted, when the thread has nothing in its hand, and the state it leaves
behind is the one in which a socket that fails right afterwards would leave the
client. So whatever is true of the runs of a client whose socket may fail is
true of one whose callbacks may panic: what was queued stays there, is handed
out in order, and then the stream ends.

## Theorems

* `unwinds_decode`: Where a panic can come.
* `plain_step`: A step with a panic, as steps without one.
* `udp_panicking`: What holds of every run.
* `panicRun_ends`: A callback that panics, and what its consumer gets.
-/

namespace ShredStream

namespace Udp

open Codec StreamDecoder UdpClient BoundedFifo Feed Machine

variable {κ : Type} (panics : κ → Notice → Bool)

/-- A panic comes where a datagram was rejected: the thread is between two
    rounds of its loop, and has produced nothing. -/
theorem unwinds_decode (hook : NoticeHook κ) (s : UdpClient) (a : Action)
    (r : UdpClient × List Output) (hm : Moves s a r) (h : unwinds panics hook r.2 = true) :
    r.1.thread = .check ∧ producedOf r.2 = [] := by
  rcases decodes_or_quiet s a r hm with ⟨now, bytes, rfl, rfl⟩ | hquiet
  · rcases decode_cases s now bytes with ⟨u, hres, hd⟩ | ⟨_, hd⟩
    · -- An update fires nothing.
      have hnone : (s.decoder.push now bytes).notices = [] := by
        rw [push_notices, hres]
      rw [hd, hnone] at h
      cases h
    · rw [hd]
      exact ⟨rfl, (reports_notices _).1⟩
  · have hnone : r.2.filterMap report = [] := hquiet.fired
    rw [unwinds, hnone] at h
    cases h

/-- What the thread does instead of unwinding: it goes on, unless it is told to
    stop, and the socket fails. -/
def stopping (s : UdpClient) : List Action :=
  if s.closed then [.thread] else [.thread, .recv .failed]

theorem run_stopping (s : UdpClient) (h : s.thread = .check) :
    udp.run s (stopping s) = some ({ s with thread := .shutStore }, []) := by
  unfold stopping
  by_cases hc : s.closed = true
  · rw [if_pos hc]
    refine run_singleton udp s _ .thread [] ?_
    simp only [udp, UdpClient.step, stepThread, h, hc, if_true]
  · have hcheck : udp.step s .thread = some ({ s with thread := .recv }, []) := by
      simp only [udp, UdpClient.step, stepThread, h, hc, Bool.false_eq_true, if_false]
    rw [if_neg hc, run_cons_of_step udp s _ .thread [.recv .failed] [] hcheck,
      run_singleton udp _ { s with thread := .shutStore } (.recv .failed) [] rfl]
    rfl

theorem arrivalsOf_stopping (s : UdpClient) : arrivalsOf (stopping s) = [] := by
  unfold stopping
  split <;> rfl

/-- A step is a step of a client whose callbacks do not panic, and then perhaps
    what such a client does when its socket fails. -/
theorem plain_step (s t : UdpClient × NoticeHook κ) (i : Hooked Action κ) (os : List Output)
    (h : (panicking panics).step s i = some (t, os)) :
    ∃ plain, udp.run s.1 plain = some (t.1, os) ∧ arrivalsOf plain = arrivalsOf (ownOf [i]) := by
  cases i with
  | set k =>
      cases h
      exact ⟨[], rfl, rfl⟩
  | own a =>
      simp only [panicking] at h
      rcases hstep : udp.step s.1 a with _ | ⟨u, new⟩ <;> rw [hstep] at h
      · cases h
      have hone := run_singleton udp s.1 u a new hstep
      by_cases hp : unwinds panics s.2 new = true
      · simp only [hp, if_true, Option.some.injEq, Prod.mk.injEq] at h
        rcases h with ⟨rfl, rfl⟩
        rcases unwinds_decode panics s.2 s.1 a (u, new) (moves_of_step _ _ _ hstep) hp with
          ⟨hcheck, _⟩
        refine ⟨[a] ++ stopping u, ?_, ?_⟩
        · exact (run_append udp _ _ _ _ _).mpr
            ⟨u, new, [], hone, run_stopping u hcheck, (List.append_nil _).symm⟩
        · rw [List.singleton_append, arrivalsOf_cons, arrivalsOf_stopping, List.append_nil]
          rfl
      · simp only [hp, Bool.false_eq_true, if_false, Option.some.injEq, Prod.mk.injEq] at h
        rcases h with ⟨rfl, rfl⟩
        exact ⟨[a], hone, rfl⟩

/-- Every run is one of a client whose callbacks do not panic, which is handed
    the same datagrams and shows the same. -/
theorem plain_run (s t : UdpClient × NoticeHook κ) (inputs : List (Hooked Action κ))
    (os : List Output) (h : (panicking panics).run s inputs = some (t, os)) :
    ∃ plain, udp.run s.1 plain = some (t.1, os) ∧ arrivalsOf plain = arrivalsOf (ownOf inputs) := by
  refine run_invariant (panicking panics) (fun before u os => ∃ plain,
    udp.run s.1 plain = some (u.1, os) ∧ arrivalsOf plain = arrivalsOf (ownOf before))
    ?_ inputs [] s t [] os ⟨[], rfl, rfl⟩ h
  rintro before u os i v new ⟨plain, hrun, harrivals⟩ hstep
  rcases plain_step panics u v i new hstep with ⟨more, hmore, hnew⟩
  refine ⟨plain ++ more, (run_append udp _ _ _ _ _).mpr ⟨u.1, os, new, hrun, hmore, rfl⟩, ?_⟩
  have hown : ownOf (before ++ [i]) = ownOf before ++ ownOf [i] := List.filterMap_append
  have happend : ∀ as bs, arrivalsOf (as ++ bs) = arrivalsOf as ++ arrivalsOf bs :=
    fun as bs => List.filterMap_append
  rw [hown, happend, happend, harrivals, hnew]

/-- Whatever callbacks are set and whatever they panic on, every run of the
    client is one of a client whose callbacks do not panic: with the same
    datagrams it shows the same and ends the same. So the contract of a feed
    is kept and every update is accounted for; and after a panic the thread
    has left its loop and nothing more is produced. -/
theorem udp_panicking (queueCapacity : Nat) (inputs : List (Hooked Action κ))
    (t : UdpClient × NoticeHook κ) (os : List Output)
    (h : (panicking panics).run (bind queueCapacity, .default) inputs = some (t, os)) :
    (∃ plain, udp.run (bind queueCapacity) plain = some (t.1, os) ∧
      arrivalsOf plain = arrivalsOf (ownOf inputs)) ∧
    Contract (os.flatMap seen) ∧
    Ledger (producedOf os) (receivedOf os) (evictedOf os) (t.1.queue ++ t.1.thread.inHand) ∧
    ∀ before a after u v os₁ new, inputs = before ++ .own a :: after →
      (panicking panics).run (bind queueCapacity, .default) before = some (u, os₁) →
      (panicking panics).step u (.own a) = some (v, new) → unwinds panics u.2 new = true →
      t.1.thread.Leaving ∧ producedOf os = producedOf os₁ := by
  rcases plain_run panics _ t inputs os h with ⟨plain, hplain, harrivals⟩
  refine ⟨⟨plain, hplain, harrivals⟩, ?_, ledger_run queueCapacity plain t.1 os hplain, ?_⟩
  · exact udp_simulates.shows Contract _ t.1 _ (fun ops f ws hrun => contract_run _ ops f ws hrun)
      ⟨ending_bind queueCapacity, rfl⟩ plain os hplain
  · rintro before a after u v os₁ new rfl hbefore hstep hpanic
    rcases run_split (panicking panics) _ t before after (.own a) os h with
      ⟨u', v', p₁, p₂, p₃, hbefore', hstep', hafter, rfl⟩
    rw [hbefore, Option.some.injEq, Prod.mk.injEq] at hbefore'
    rcases hbefore' with ⟨rfl, rfl⟩
    rw [hstep, Option.some.injEq, Prod.mk.injEq] at hstep'
    rcases hstep' with ⟨rfl, rfl⟩
    rcases plain_run panics v t after p₃ hafter with ⟨rest, hrest, _⟩
    -- The step that panics produces nothing and puts the thread out of its loop.
    simp only [panicking] at hstep
    rcases hown : udp.step u.1 a with _ | ⟨w, new'⟩ <;> rw [hown] at hstep
    · cases hstep
    simp only [Option.some.injEq, Prod.mk.injEq] at hstep
    rcases hstep with ⟨rfl, rfl⟩
    rw [if_pos hpanic] at hrest
    rcases unwinds_decode panics u.2 u.1 a (w, new') (moves_of_step _ _ _ hown) hpanic with
      ⟨_, hnone⟩
    rcases leaving_run { w with thread := .shutStore } t.1 rest p₃ trivial hrest with
      ⟨hleaving, hsilent, _⟩
    refine ⟨hleaving, ?_⟩
    rw [producedOf_append, producedOf_append, hnone, hsilent, List.append_nil, List.append_nil]

/-- The callback panics on a stray datagram, with one update in the queue. -/
def panicRun : List (Hooked Action Unit) :=
  [.set (), .own .thread,
   .own (.recv (.datagram 0 (frame msgTransaction 0 1 3 [8, 0, 0, 0, 0, 0, 0, 0, 43]))),
   .own .thread, .own .thread, .own .thread, .own (.recv (.datagram 1 [1, 2, 3])),
   .own .thread, .own .thread, .own (.call (.wait .nextUpdate)), .own .consumer,
   .own (.call (.wait .nextUpdate)), .own .consumer, .own .consumer, .own .consumer]

/-- The consumer gets the update and then the end. -/
theorem panicRun_ends : ∃ t os,
    (panicking (fun _ _ => true)).run (bind 1, .default) panicRun = some (t, os) ∧
    (receivedOf os).length = 1 ∧ Output.nothing (.wait .nextUpdate) ∈ os ∧
    Contract (os.flatMap seen) ∧
    ∃ plain, udp.run (bind 1) plain = some (t.1, os) := by
  have hrun : ∃ t os, (panicking (fun _ _ => true)).run (bind 1, .default) panicRun = some (t, os) ∧
      (receivedOf os).length = 1 ∧ Output.nothing (.wait .nextUpdate) ∈ os :=
    ⟨_, _, rfl, rfl, by decide⟩
  rcases hrun with ⟨t, os, hrun, hone, hend⟩
  rcases udp_panicking (fun _ _ => true) 1 panicRun t os hrun with ⟨⟨plain, hplain, _⟩, hc, _⟩
  exact ⟨t, os, hrun, hone, hend, hc, plain, hplain⟩

end Udp

end ShredStream
