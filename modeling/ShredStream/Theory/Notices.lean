import ShredStream.Core.Hook
import ShredStream.Theory.Grpc.Announce
import ShredStream.Theory.Grpc.Delivery
import ShredStream.Theory.Grpc.Draws
import ShredStream.Theory.Udp.Blocking

/-!
# What a Callback Hears

The notices are the only way in which a client speaks of its own accord, and
`on_notice` is a method of a client that exists already. So what is fired while
a client is made is heard by nobody: of a UDP client that is the notice that
its receive buffer was clamped, the only one it has for that. What it fires
later are decode errors and nothing else. That the buffer is smaller than what
was asked for can still be seen, at any time, in the counters.

A gRPC client speaks of its reconnections and of nothing else. A response that
carries no transaction is counted and not announced.

Both are statements about the clients with their hooks: `on_notice` may be
called between any two steps, or never. The first call cuts the run in two. What
is fired before it is missed; what is fired behind it is heard once each and in
order, and a counter has grown since then by as much as was heard.

## Main definitions

* `Grpc.announced`: The attempt and the delay in a notice.

## Theorems

* `Udp.fired_run`: What a UDP client fires, and that it is counted.
* `Udp.udp_heard`: What is heard of a UDP client.
* `clamped_unheard`: Of a receive buffer that was clamped nothing is heard.
* `Grpc.fired_run`: What a gRPC client fires.
* `Grpc.grpc_heard`: What is heard of a gRPC client.
* `skipped_unheard`: Of a response that was skipped nothing is heard.
-/

namespace ShredStream

namespace Udp

open Codec StreamDecoder UdpClient Machine

/-- A push fires decode errors only, and counts what it fires. -/
theorem push_fired (d : StreamDecoder) (now : SystemTime) (b : Bytes) :
    (∀ n ∈ (d.push now b).notices, n = .decodeError) ∧ (d.push now b).decoder.stats.decodeErrors
      = d.stats.decodeErrors + UInt64.ofNat (d.push now b).notices.length := by
  have hcounted := (push_effect d ⟨now, b⟩).decodeErrors
  simp only at hcounted
  rw [hcounted, push_notices]
  cases hres : (d.push now b).result with
  | error e =>
      refine ⟨fun n hn => List.mem_singleton.mp hn, ?_⟩
      simp only [errorsOf, List.countP_cons, hres, List.countP_nil, if_true]
      rfl
  | update u | skipped =>
      refine ⟨fun n hn => absurd hn List.not_mem_nil, ?_⟩
      simp only [errorsOf, List.countP_cons, hres, List.countP_nil, Bool.false_eq_true, if_false]
      rfl

theorem firedBy_notices (ns : List Notice) : firedBy (ns.map Output.notice) = ns := by
  induction ns with
  | nil => rfl
  | cons n ns ih => exact congrArg (n :: ·) ih

theorem firedBy_decode (s : UdpClient) (now : SystemTime) (bytes : Bytes) :
    firedBy (s.decode now bytes).2 = (s.decoder.push now bytes).notices ∧
      (s.decode now bytes).1.decoder = (s.decoder.push now bytes).decoder := by
  rcases decode_cases s now bytes with ⟨u, _, hd⟩ | ⟨_, hd⟩ <;> rw [hd]
  · rw [firedBy_append, firedBy_notices]
    exact ⟨List.append_nil _, rfl⟩
  · exact ⟨firedBy_notices _, rfl⟩

/-- A client fires decode errors only, and counts what it fires. -/
theorem fired_run (s t : UdpClient) (inputs : List Action) (os : List Output)
    (h : udp.run s inputs = some (t, os)) :
    (∀ n ∈ firedBy os, n = .decodeError) ∧ t.decoder.stats.decodeErrors
      = s.decoder.stats.decodeErrors + UInt64.ofNat (firedBy os).length := by
  refine run_moves (fun _ u os => (∀ n ∈ firedBy os, n = .decodeError) ∧
    u.decoder.stats.decodeErrors
      = s.decoder.stats.decodeErrors + UInt64.ofNat (firedBy os).length)
    (fun _ u os a r hu hm => ?_) s t inputs os
    ⟨fun n hn => absurd hn List.not_mem_nil, (UInt64.add_zero _).symm⟩ h
  rcases hu with ⟨hall, hcount⟩
  rw [firedBy_append]
  rcases decodes_or_quiet u a r hm with ⟨now, bytes, rfl, rfl⟩ | hquiet
  · rcases firedBy_decode u now bytes with ⟨hfired, hdecoder⟩
    rcases push_fired u.decoder now bytes with ⟨hnew, hcounted⟩
    rw [hfired, hdecoder]
    refine ⟨fun n hn => ?_, ?_⟩
    · exact (List.mem_append.mp hn).elim (hall n) (hnew n)
    · rw [hcounted, hcount, List.length_append, UInt64.ofNat_add, UInt64.add_assoc]
  · rw [hquiet.fired, List.append_nil, hquiet.stats]
    exact ⟨hall, hcount⟩

/-- What is heard of a client that was bound, by callbacks set at any time:
    decode errors, and never that the receive buffer was clamped, though this
    is fired exactly when it was. The counters show the size that was granted
    at all times. Of the decode errors those are heard that are fired behind
    the first callback, one each, so their counter has grown by as many. -/
theorem udp_heard {ε κ : Type} (calls : SocketCalls ε) (cfg : UdpConfig) (b : Bound)
    (hb : bindOn calls cfg = .ok b) (inputs : List (Hooked Action κ))
    (s : UdpClient × NoticeHook κ) (heard : List (κ × Notice))
    (h : (noticed κ).run (b.client, .default) inputs = some (s, heard)) :
    (.recvBufferClamped cfg.recvBufferBytes calls.effective ∈ b.fired ↔
      calls.effective < cfg.recvBufferBytes) ∧
    (∀ x ∈ heard, x.2 = .decodeError) ∧
    s.1.decoder.stats.recvBufferBytes = UInt64.ofNat calls.effective ∧
    ∃ u early late, udp.run b.client (beforeSet inputs) = some (u, early) ∧
      udp.run u (afterSet inputs) = some (s.1, late) ∧
      heard.map (fun x => x.2) = firedBy late ∧
      u.decoder.stats.decodeErrors = UInt64.ofNat (firedBy early).length ∧
      s.1.decoder.stats.decodeErrors
        = u.decoder.stats.decodeErrors + UInt64.ofNat heard.length := by
  rcases bindOn_ok calls cfg b hb with ⟨stats, hsocket, hclient⟩
  have hstats := bindSocket_ok calls cfg _ hsocket
  rw [Prod.mk.injEq] at hstats
  rcases hooked_run udp report inputs _ s heard h with ⟨u, early, late, hearly, hlate, hheard⟩
  rcases fired_run _ _ _ early hearly with ⟨_, hbefore⟩
  rcases fired_run _ _ _ late hlate with ⟨hall, hbehind⟩
  have hfired : heard.map (fun x => x.2) = firedBy late := hheard
  refine ⟨?_, fun x hx => ?_, ?_, u, early, late, hearly, hlate, hfired, ?_, ?_⟩
  · rw [hstats.2]
    by_cases hclamped : calls.effective < cfg.recvBufferBytes
    · simp only [hclamped, if_true, List.mem_singleton]
    · simp only [hclamped, if_false, List.not_mem_nil]
  · refine hall x.2 ?_
    rw [← hfired]
    exact List.mem_map_of_mem hx
  · rw [recvBuffer_run _ _ _ late hlate, recvBuffer_run _ _ _ early hearly, hclient, hstats.1]
    rfl
  · rw [hbefore, hclient, hstats.1]
    exact UInt64.zero_add _
  · rw [hbehind, ← hfired, List.length_map]

/-- Two stray datagrams, and a callback that is set between them. -/
def strayRun : List (Hooked Action Nat) :=
  [.own .thread, .own (.recv (.datagram 5 [1, 2, 3])), .own .thread, .set 0,
    .own (.recv (.datagram 6 [4]))]

/-- Half of the receive buffer that was asked for is granted. The callback
    hears of the second datagram, and not of the first one nor of that. -/
theorem clamped_unheard : ∃ b s, bindOn clampingCalls {} = .ok b ∧
    (noticed Nat).run (b.client, .default) strayRun = some (s, [(0, .decodeError)]) ∧
    Notice.recvBufferClamped (64 <<< 20) (32 <<< 20) ∈ b.fired ∧
    s.1.decoder.stats.recvBufferBytes = UInt64.ofNat (32 <<< 20) ∧
    s.1.decoder.stats.decodeErrors = 2 := by
  have hrun : ∃ b s, bindOn clampingCalls {} = .ok b ∧ (noticed Nat).run (b.client, .default)
      strayRun = some (s, [(0, .decodeError)]) ∧ ∃ u early, udp.run b.client (beforeSet strayRun)
        = some (u, early) ∧ (firedBy early).length = 1 := ⟨_, _, rfl, rfl, _, _, rfl, rfl⟩
  rcases hrun with ⟨b, s, hb, hrun, u, early, hearly, hone⟩
  rcases udp_heard clampingCalls {} b hb _ s _ hrun with
    ⟨hclamped, _, hsize, u', early', late, hearly', _, _, hmissed, hcount⟩
  rw [hearly, Option.some.injEq, Prod.mk.injEq] at hearly'
  rcases hearly' with ⟨rfl, rfl⟩
  refine ⟨b, s, hb, hrun, hclamped.mpr (by decide), hsize, ?_⟩
  rw [hcount, hmissed, hone]
  rfl

end Udp

namespace Grpc

open GrpcClient Machine

/-- A connected client fires notices of its reconnections and no others, and
    counts the restored ones. -/
theorem fired_run (D : Deps) (s t : Config) (inputs : List Input) (os : List Output)
    (hs : Connected D s) (h : (grpc D).run s inputs = some (t, os)) :
    (∀ n ∈ os.filterMap report, (∃ attempt delay, n = .reconnecting attempt delay) ∨
      n = .reconnected) ∧
    t.client.stats.reconnects = UInt64.ofNat ((os.filterMap report).count .reconnected) ∧
    t.client.stats.decodeErrors = UInt64.ofNat (skippedOf inputs) := by
  have htally := run_moves D (fun inputs u os => Tally inputs u.client os)
    (fun inputs u os i r hu hm => tally_step D inputs u i r os hu hm)
    s t inputs os (tally_connected D s hs) h
  have hcount : reconnectedOf os = (os.filterMap report).count .reconnected := by
    rw [reconnectedOf, List.count_filterMap]
    refine List.countP_congr (fun o _ => ?_)
    cases o with
    | notice n => cases n <;> simp [report]
    | sleep | attempt | subscribe | returned | filtersUpdated => simp [report]
  refine ⟨?_, by rw [htally.reconnects, hcount], htally.decodeErrors⟩
  refine (run_moves D (fun _ u os => Coherent u ∧ ∀ n ∈ os.filterMap report,
    (∃ attempt delay, n = .reconnecting attempt delay) ∨ n = .reconnected)
    (fun _ u os i r hu hm => ?_) s t inputs os ?_ h).2
  · refine ⟨coherent_step D u i r hu.1 hm, fun n hn => ?_⟩
    rw [List.filterMap_append] at hn
    rcases List.mem_append.mp hn with hn | hn
    · exact hu.2 n hn
    rcases List.mem_filterMap.mp hn with ⟨o, ho, hreport⟩
    have hemits := emits_step D u i r hu.1 hm
    generalize r.2 = new at hemits ho
    cases hemits with
    | backsOff _ _ hb =>
        rcases hb with ⟨_, _, delay, _, rfl⟩
        rcases List.mem_cons.mp ho with rfl | ho
        · cases hreport
          exact Or.inl ⟨_, delay, rfl⟩
        · rw [List.mem_singleton.mp ho] at hreport
          cases hreport
    | slept | lost | subscribes =>
        rw [List.mem_singleton.mp ho] at hreport
        cases hreport
    | connects _ _ _ _ _ _ hnew =>
        rcases hnew with rfl | rfl
        · rw [List.mem_singleton.mp ho] at hreport
          cases hreport
          exact Or.inr rfl
        · exact absurd ho List.not_mem_nil
    | quiet _ _ _ hnew =>
        rcases hnew o ho with ⟨item, rfl⟩ | ⟨x, rfl⟩ <;> cases hreport
  · refine ⟨?_, fun n hn => absurd hn List.not_mem_nil⟩
    rw [Coherent, (connected_client D s hs).2.2.1]
    trivial

/-- The attempt and the delay that a notice announces. -/
def announced : Notice → Option (UInt32 × Duration)
  | .reconnecting attempt delay => some (attempt, delay)
  | _ => none

/-- The announcements are in the notices. -/
theorem announcementsOf_report (os : List Output) :
    announcementsOf os = (os.filterMap report).filterMap announced := by
  rw [announcementsOf, List.filterMap_filterMap]
  refine List.filterMap_congr (fun o _ => ?_)
  cases o with
  | notice n => cases n <;> rfl
  | sleep | attempt | subscribe | returned | filtersUpdated => rfl

/-- What is heard of a connected client, by callbacks set at any time: that it
    reconnects and that it is connected again, and never of a response that
    carries no transaction, though each of these is counted. All that is fired
    behind the first callback is heard: one notice for every delay that is
    slept, with that delay, and one for every reconnection that is counted. -/
theorem grpc_heard {κ : Type} (D : Deps) (s : Config) (hs : Connected D s)
    (inputs : List (Hooked Input κ)) (t : Config × NoticeHook κ) (heard : List (κ × Notice))
    (h : (noticed D κ).run (s, .default) inputs = some (t, heard)) :
    (∀ x ∈ heard, (∃ attempt delay, x.2 = .reconnecting attempt delay) ∨ x.2 = .reconnected) ∧
    t.1.client.stats.decodeErrors = UInt64.ofNat (skippedOf (ownOf inputs)) ∧
    ∃ u early late, (grpc D).run s (beforeSet inputs) = some (u, early) ∧
      (grpc D).run u (afterSet inputs) = some (t.1, late) ∧
      heard.map (fun x => x.2) = late.filterMap report ∧
      (heard.filterMap (fun x => announced x.2)).map (fun a => a.2) = sleepsOf late ∧
      t.1.client.stats.reconnects = u.client.stats.reconnects
        + UInt64.ofNat ((heard.map (fun x => x.2)).count .reconnected) := by
  rcases hooked_run (grpc D) report inputs s t heard h with ⟨u, early, late, hearly, hlate, hheard⟩
  have hwhole : (grpc D).run s (ownOf inputs) = some (t.1, early ++ late) := by
    rw [ownOf_eq]
    exact (run_append (grpc D) s t.1 _ _ _).mpr ⟨u, early, late, hearly, hlate, rfl⟩
  rcases fired_run D s t.1 (ownOf inputs) (early ++ late) hs hwhole with ⟨hall, hcount, herrors⟩
  rcases fired_run D s u (beforeSet inputs) early hs hearly with ⟨_, hbefore, _⟩
  refine ⟨fun x hx => ?_, herrors, u, early, late, hearly, hlate, hheard, ?_, ?_⟩
  · refine hall x.2 ?_
    rw [List.filterMap_append, ← hheard]
    exact List.mem_append_right _ (List.mem_map_of_mem hx)
  · rw [(drawn_run D u t.1 _ late hlate).slept, announcementsOf_report, ← hheard,
      List.filterMap_map]
    rfl
  · rw [hcount, hbefore, List.filterMap_append, List.count_append, hheard, UInt64.ofNat_add]

/-- The connection is lost twice, and the callback is set in between. On both
    connections a response carries no transaction. -/
def lostTwiceRun : List (Hooked Input Nat) :=
  reconnectedRun.map Hooked.own ++
  [.set 0, .own (.nextUpdate 0), .own (.message (.ok none) ⟨0, 0⟩ 0), .own .slept,
    .own (.channel (.ok ()) 0), .own (.response (.ok 2) ⟨0, 0⟩),
    .own (.message (.ok (some ⟨[], none, none⟩)) ⟨0, 0⟩ 5)]

/-- The second loss is heard of, and neither the first one nor the responses. -/
theorem skipped_unheard : ∃ t, (noticed openDeps Nat).run (plainStart, .default) lostTwiceRun
      = some (t, [(0, .reconnecting 2 78860268), (0, .reconnected)]) ∧
    t.1.client.stats.decodeErrors = 2 ∧ t.1.client.stats.reconnects = 2 := by
  have hrun : ∃ t, (noticed openDeps Nat).run (plainStart, .default) lostTwiceRun
      = some (t, [(0, .reconnecting 2 (Duration.fromSecsF64
          (backoffBound {} 2 * (Jitter.new none).next.1.next.2))), (0, .reconnected)]) ∧
      ∃ u early, (grpc openDeps).run plainStart (beforeSet lostTwiceRun) = some (u, early) ∧
        u.client.stats.reconnects = 1 := ⟨_, rfl, _, _, rfl, rfl⟩
  rw [plain_delays.2.2] at hrun
  rcases hrun with ⟨t, hrun, u, early, hearly, hone⟩
  rcases grpc_heard openDeps plainStart plainStart_connected _ t _ hrun with
    ⟨_, herrors, u', early', late, hearly', _, _, _, hreconnects⟩
  rw [hearly, Option.some.injEq, Prod.mk.injEq] at hearly'
  rcases hearly' with ⟨rfl, rfl⟩
  refine ⟨t, hrun, herrors, ?_⟩
  rw [hreconnects, hone]
  rfl

end Grpc

end ShredStream
