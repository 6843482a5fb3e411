import ShredStream.Theory.Grpc.Step

/-!
# The Filter Map and the Server

The client stores one map and sends it from two places: `try_connect` puts it
into the fresh channel of every connection, and `update_filters` sends it on
the channel of the connection it finds. What is shown here is that the two
never disagree: the last request on the channel in use is the request message
of the stored map.

Only four kinds of steps matter. `update_filters` replaces the map and sends
it, a transport connection makes a fresh channel, an accepted subscription
puts that channel into use, and every other step keeps the map, the
connection if there still is one, and sends nothing (`Keeps`). The fresh
channel is a local of the call in progress between the second and the third
kind, so the invariant also says what that local holds.

A send on a closed channel loses the request; the source ignores the error.
The log of the channel records it, and the invariant ties it to the input
that caused it. A send whose future is dropped is not recorded anywhere, so
runs with such a send are left out.

## Main definitions

* `sendOf`, `lastSend`: The sends of `update_filters`, and the last of them.
* `Keeps`: A stretch that neither changes nor sends the map.
* `LastSent`: The map is the last request on a channel.
* `Agrees`: The invariant.
* `Requests`: What a step does with the map and the requests.

## Theorems

* `requests_cases`: The four kinds of steps.
* `agrees_step`: A step keeps the invariant.
* `requests_of_step`: What a step from an agreeing state sends.
* `filters_agree`: What holds of every run.
-/

namespace ShredStream

namespace Grpc

open GrpcClient Proto

/-! ### The sends of `update_filters` -/

/-- The send of an `update_filters` with a valid map. -/
def sendOf : Input → Option Sent
  | .updateFilters filters sent => match filters.validate with
    | .ok () => some sent
    | .error _ => none
  | _ => none

/-- How the send of the last `update_filters` with a valid map ended. -/
def lastSend (inputs : List Input) : Option Sent :=
  (inputs.filterMap sendOf).getLast?

theorem lastSend_snoc (inputs : List Input) (i : Input) :
    lastSend (inputs ++ [i]) = (sendOf i).or (lastSend inputs) := by
  rw [lastSend, List.filterMap_append, List.getLast?_append, lastSend]
  cases h : sendOf i with
  | none => rw [List.filterMap_cons_none h, List.filterMap_nil, List.getLast?_nil]
  | some sent => rw [List.filterMap_cons_some h, List.filterMap_nil, List.getLast?_singleton]

/-- A log that ends with an enqueued request is that of a channel whose last
    enqueued request it is. -/
theorem enqueued_getLast (tx : Sender) (req : SubscribeBinaryTransactionsRequest)
    (h : tx.log.getLast? = some (req, true)) : tx.enqueued.getLast? = some req := by
  rcases List.getLast?_eq_some_iff.mp h with ⟨earlier, hlog⟩
  rw [Sender.enqueued, hlog, List.filter_append, List.map_append, List.getLast?_append]
  rfl

/-! ### What a step does with the map -/

/-- The stretch from `c` to `r` changes neither the map nor the connection,
    which it may give up, and it sends nothing. -/
structure Keeps (c : GrpcClient) (r : Config × List Output) : Prop where
  filters : r.1.client.filters = c.filters
  state : ∀ stream reqTx since, r.1.client.state = .connected stream reqTx since →
    c.state = .connected stream reqTx since
  call : ∀ site reqTx, r.1.call ≠ some (.subscribe site reqTx)
  silent : ∀ req, .subscribe req ∉ r.2

theorem keeps_enter (c : GrpcClient) (now : Instant) : Keeps c (settle (c.enter now)) := by
  have hentered := entered_enter c now
  generalize settle (c.enter now) = q at hentered ⊢
  cases hentered with
  | finished | disconnected | connected => refine ⟨rfl, fun _ _ _ hs => hs, ?_, ?_⟩ <;> simp
  | terminal => refine ⟨rfl, ?_, ?_, ?_⟩ <;> simp

/-- A stretch may change the rest of the client first. -/
theorem keeps_of_client (c c' : GrpcClient) (r : Config × List Output) (h : Keeps c' r)
    (hfilters : c'.filters = c.filters)
    (hstate : ∀ stream reqTx since, c'.state = .connected stream reqTx since →
      c.state = .connected stream reqTx since) : Keeps c r :=
  ⟨h.filters.trans hfilters, fun stream reqTx since hs => hstate stream reqTx since
    (h.state stream reqTx since hs), h.call, h.silent⟩

/-- Giving up the connection, or ending, keeps the map and sends nothing. -/
theorem keeps_lost (c : GrpcClient) (state : State) (dataLoss : Option Instant) (now : Instant)
    (hstate : ∀ stream reqTx since, state ≠ .connected stream reqTx since) :
    Keeps c (settle ({ c with state, lastDataLoss := dataLoss }.enter now)) :=
  keeps_of_client c _ _ (keeps_enter _ now) rfl
    (fun stream reqTx since hs => absurd hs (hstate stream reqTx since))

theorem keeps_afterConnect (c : GrpcClient) (site : Site) (r : Except Status Unit)
    (now : Instant) : Keeps c (settle (c.afterConnect site r now)) := by
  cases site <;> cases r
  case dataLoss.error e =>
    exact keeps_lost c .disconnected c.lastDataLoss now (fun _ _ _ h => by cases h)
  all_goals exact keeps_enter c now

theorem keeps_onMessage (c : GrpcClient) (stable : Bool)
    (r : Except Status (Option SubscribeBinaryTransactionsResponse)) (clock : Clock)
    (receivedAt : SystemTime) : Keeps c (settle (c.onMessage stable r clock receivedAt)) := by
  have hheard := heard_onMessage c stable r clock receivedAt
  generalize settle (c.onMessage stable r clock receivedAt) = q at hheard ⊢
  cases hheard with
  | terminal status e =>
      exact keeps_lost c (.terminal e) c.lastDataLoss clock.first (fun _ _ _ h => by cases h)
  | recoverable | ended =>
      exact keeps_lost c .disconnected c.lastDataLoss clock.first (fun _ _ _ h => by cases h)
  | recent =>
      exact keeps_lost c .disconnected (some clock.second) clock.second (fun _ _ _ h => by cases h)
  | skipped => exact keeps_of_client c _ _ (keeps_enter _ clock.first) rfl (fun _ _ _ hs => hs)
  | immediate | returned => refine ⟨rfl, fun _ _ _ hs => hs, ?_, ?_⟩ <;> simp

/-! ### The four kinds of steps -/

/-- An accepted subscription puts the channel of the call into use. -/
theorem onResponse_connects (c : GrpcClient) (site : Site) (reqTx : Sender) (stream : StreamId)
    (clock : Clock) :
    (settle (c.onResponse site reqTx (.ok stream) clock)).1.client.state
        = .connected stream reqTx clock.first ∧
      Keeps { c with state := .connected stream reqTx clock.first }
        (settle (c.onResponse site reqTx (.ok stream) clock)) := by
  have hstate : (c.subscribed stream reqTx clock.first).1.state
      = .connected stream reqTx clock.first := rfl
  rw [onResponse_ok, enter_connected _ _ stream reqTx clock.first hstate]
  refine ⟨rfl, rfl, fun _ _ _ h => h, ?_, ?_⟩
  · simp
  · intro req hreq
    rw [List.append_nil, subscribed] at hreq
    split at hreq <;> simp at hreq

/-- What a step can do with the map and the requests: it replaces the map,
    makes a fresh channel, puts one into use, or does none of this. -/
theorem requests_cases (D : Deps) (s : Config) (i : Input) (r : Config × List Output)
    (h : Moves D s i r) :
    (∃ filters sent, i = .updateFilters filters sent ∧ s.call = none ∧
      r = (⟨(s.client.updateFilters D filters sent).1, none⟩,
        (s.client.updateFilters D filters sent).2)) ∨
    (∃ site now, i = .channel (.ok ()) now ∧
      r = (⟨s.client, some (.subscribe site s.client.freshSender)⟩,
        [.subscribe (filtersToProto s.client.filters)])) ∨
    (∃ site reqTx stream clock, i = .response (.ok stream) clock ∧
      s.call = some (.subscribe site reqTx) ∧
      r.1.client.state = .connected stream reqTx clock.first ∧
      Keeps { s.client with state := .connected stream reqTx clock.first } r) ∨
    (Keeps s.client r ∧ (∀ filters sent, i ≠ .updateFilters filters sent) ∧
      ∀ stream clock, i ≠ .response (.ok stream) clock) := by
  cases h with
  | updateFilters c filters sent => exact Or.inl ⟨filters, sent, rfl, rfl, rfl⟩
  | channel c site r now =>
      cases r with
      | ok u => exact Or.inr (Or.inl ⟨site, now, rfl, rfl⟩)
      | error e =>
          refine Or.inr (Or.inr (Or.inr ⟨keeps_afterConnect c site _ now, ?_, ?_⟩)) <;> simp
  | response c site reqTx r clock =>
      cases r with
      | ok stream =>
          exact Or.inr (Or.inr (Or.inl ⟨site, reqTx, stream, clock, rfl, rfl,
            onResponse_connects c site reqTx stream clock⟩))
      | error status =>
          refine Or.inr (Or.inr (Or.inr ⟨keeps_afterConnect c site _ clock.second, ?_, ?_⟩)) <;>
            simp
  | nextUpdate c now =>
      refine Or.inr (Or.inr (Or.inr ⟨keeps_enter c now, ?_, ?_⟩)) <;> simp
  | message c stable r clock receivedAt =>
      refine Or.inr (Or.inr (Or.inr ⟨keeps_onMessage c stable r clock receivedAt, ?_, ?_⟩)) <;>
        simp
  | close c =>
      refine Or.inr (Or.inr (Or.inr ⟨⟨rfl, fun _ _ _ h => ?_, ?_, ?_⟩, ?_, ?_⟩))
      · cases h
      all_goals simp
  | slept c =>
      refine Or.inr (Or.inr (Or.inr ⟨⟨rfl, fun _ _ _ h => h, ?_, ?_⟩, ?_, ?_⟩)) <;>
        simp [tryConnect, settle]
  | dropCall c await =>
      refine Or.inr (Or.inr (Or.inr ⟨⟨rfl, fun _ _ _ h => h, ?_, ?_⟩, ?_, ?_⟩)) <;> simp

/-! ### The invariant -/

/-- The last request on the channel is the image of the map, unless the send
    of the last `update_filters` found the receiver gone. -/
def LastSent (inputs : List Input) (filters : Filters) (reqTx : Sender) : Prop :=
  reqTx.log.getLast? = some (filtersToProto filters, true) ∨
    (reqTx.log.getLast? = some (filtersToProto filters, false) ∧ lastSend inputs = some .closed)

/-- The stored map is valid, it is the last one sent on the connection, and
    the channel of a subscription in progress holds it alone. -/
structure Agrees (inputs : List Input) (s : Config) : Prop where
  valid : s.client.filters.validate = .ok ()
  last : ∀ stream reqTx since, s.client.state = .connected stream reqTx since →
    LastSent inputs s.client.filters reqTx
  fresh : ∀ site reqTx, s.call = some (.subscribe site reqTx) → reqTx = s.client.freshSender

/-- An input that is no valid `update_filters` leaves the last send alone. -/
theorem lastSent_snoc (inputs : List Input) (i : Input) (filters : Filters) (reqTx : Sender)
    (hi : sendOf i = none) (h : LastSent inputs filters reqTx) :
    LastSent (inputs ++ [i]) filters reqTx := by
  rw [LastSent, lastSend_snoc, hi, Option.none_or]
  exact h

theorem lastSent_fresh (inputs : List Input) (c : GrpcClient) :
    LastSent inputs c.filters c.freshSender :=
  Or.inl rfl

/-- A stretch that neither changes nor sends the map keeps the invariant. -/
theorem agrees_keeps (inputs : List Input) (i : Input) (s : Config) (r : Config × List Output)
    (hi : sendOf i = none) (h : Agrees inputs s) (hr : Keeps s.client r) :
    Agrees (inputs ++ [i]) r.1 := by
  refine ⟨?_, ?_, fun site reqTx hcall => absurd hcall (hr.call site reqTx)⟩
  · rw [hr.filters]
    exact h.valid
  · intro stream reqTx since hstate
    rw [hr.filters]
    exact lastSent_snoc inputs i _ reqTx hi (h.last stream reqTx since
      (hr.state stream reqTx since hstate))

/-- `update_filters` keeps the invariant, if its future is not dropped in the
    middle of the send. -/
theorem agrees_updateFilters (D : Deps) (inputs : List Input) (s : Config) (filters : Filters)
    (sent : Sent) (hsent : sent ≠ .dropped) (h : Agrees inputs s) :
    Agrees (inputs ++ [.updateFilters filters sent])
      ⟨(s.client.updateFilters D filters sent).1, none⟩ := by
  rcases updateFilters_cases D s.client filters sent with ⟨e, hv, heq⟩ |
    ⟨hv, stream, reqTx, since, hstate, heq⟩ | ⟨hv, hstate, heq⟩
  · have hi : sendOf (.updateFilters filters sent) = none := by
      simp only [sendOf, hv]
    rw [heq]
    exact ⟨h.valid, fun stream reqTx since hs => lastSent_snoc inputs _ _ reqTx hi
      (h.last stream reqTx since hs), nofun⟩
  · have hi : sendOf (.updateFilters filters sent) = some sent := by
      simp only [sendOf, hv]
    rw [heq]
    refine ⟨hv, ?_, nofun⟩
    intro stream' reqTx' since' hs
    simp only [State.connected.injEq] at hs
    rcases hs with ⟨_, rfl, _⟩
    cases sent with
    | enqueued => exact Or.inl List.getLast?_concat
    | closed =>
        refine Or.inr ⟨List.getLast?_concat, ?_⟩
        rw [lastSend_snoc, hi, Option.some_or]
    | dropped => exact absurd rfl hsent
  · rw [heq]
    exact ⟨hv, fun stream reqTx since hs => absurd hs (hstate stream reqTx since),
      nofun⟩

/-- A step keeps the invariant. -/
theorem agrees_step (D : Deps) (inputs : List Input) (s : Config) (i : Input)
    (r : Config × List Output) (hi : ∀ filters, i ≠ .updateFilters filters .dropped)
    (h : Agrees inputs s) (hm : Moves D s i r) : Agrees (inputs ++ [i]) r.1 := by
  rcases requests_cases D s i r hm with ⟨filters, sent, rfl, _, rfl⟩ | ⟨site, now, rfl, rfl⟩ |
    ⟨site, reqTx, stream, clock, rfl, hcall, _, hr⟩ | ⟨hr, hupdate, _⟩
  · refine agrees_updateFilters D inputs s filters sent ?_ h
    rintro rfl
    exact hi filters rfl
  · -- A fresh channel; the one in use, if any, is not touched.
    refine ⟨h.valid, fun stream reqTx since hs => lastSent_snoc inputs _ _ reqTx rfl
      (h.last stream reqTx since hs), ?_⟩
    intro site' reqTx' hcall
    simp only [Option.some.injEq, Await.subscribe.injEq] at hcall
    exact hcall.2.symm
  · -- The channel put into use is the fresh one of the call.
    refine agrees_keeps inputs _ ⟨{ s.client with state := .connected stream reqTx clock.first },
      none⟩ r rfl ⟨h.valid, ?_, nofun⟩ hr
    intro stream' reqTx' since' hs
    simp only [State.connected.injEq] at hs
    rw [← hs.2.1, h.fresh site reqTx hcall]
    exact lastSent_fresh inputs s.client
  · refine agrees_keeps inputs i s r ?_ h hr
    cases i with
    | updateFilters filters sent => exact absurd rfl (hupdate filters sent)
    | _ => rfl

/-! ### What is sent -/

/-- What the step from `u` to `v` on the input `i` does with the requests. -/
structure Requests (u : Config) (i : Input) (v : Config) (new : List Output) : Prop where
  /-- A subscription carries the stored map. -/
  subscribe : ∀ req, .subscribe req ∈ new →
    req = filtersToProto u.client.filters ∧ v.client.filters = u.client.filters
  /-- A connection comes into use with that map as its one request. -/
  connects : ∀ stream clock, i = .response (.ok stream) clock →
    v.client.state
      = .connected stream ⟨[(filtersToProto v.client.filters, true)]⟩ clock.first
  /-- Any other connection is the one in use before; its requests stay, and the
      only one that can be added is the image of the map stored now. -/
  keeps : ∀ stream reqTx since, v.client.state = .connected stream reqTx since →
    (∃ clock, i = .response (.ok stream) clock) ∨
      ∃ old, u.client.state = .connected stream old since ∧
        (reqTx = old ∨ ∃ enqueued,
          reqTx.log = old.log ++ [(filtersToProto v.client.filters, enqueued)])
  /-- An `update_filters` that returns an error changes nothing. -/
  refused : ∀ filters sent e, i = .updateFilters filters sent →
    .filtersUpdated (.error e) ∈ new → v = u ∧ new = [.filtersUpdated (.error e)]

/-- A send adds its request to the log, or nothing. -/
theorem send_log (tx : Sender) (req : SubscribeBinaryTransactionsRequest) (sent : Sent) :
    tx.send req sent = tx ∨ ∃ enqueued, (tx.send req sent).log = tx.log ++ [(req, enqueued)] := by
  cases sent with
  | enqueued => exact Or.inr ⟨true, rfl⟩
  | closed => exact Or.inr ⟨false, rfl⟩
  | dropped => exact Or.inl rfl

/-- `update_filters` makes no connection, adds to the requests of the one in
    use, and changes nothing when it returns an error. -/
theorem requests_updateFilters (D : Deps) (c : GrpcClient) (filters : Filters) (sent : Sent) :
    Requests ⟨c, none⟩ (.updateFilters filters sent)
      ⟨(c.updateFilters D filters sent).1, none⟩ (c.updateFilters D filters sent).2 := by
  rcases updateFilters_cases D c filters sent with ⟨e, _, heq⟩ |
    ⟨_, stream, reqTx, since, hstate, heq⟩ | ⟨_, hstate, heq⟩
  · rw [heq]
    refine ⟨?_, nofun, ?_, ?_⟩
    · intro req h
      simp at h
    · intro stream reqTx since h
      exact Or.inr ⟨reqTx, h, Or.inl rfl⟩
    · intro _ _ e' _ h
      rw [List.mem_singleton.mp h]
      exact ⟨rfl, rfl⟩
  · rw [heq]
    refine ⟨?_, nofun, ?_, ?_⟩
    · intro req h
      split at h <;> simp at h
    · intro stream' reqTx' since' h
      simp only [State.connected.injEq] at h
      rcases h with ⟨rfl, rfl, rfl⟩
      exact Or.inr ⟨reqTx, hstate, send_log reqTx (filtersToProto filters) sent⟩
    · intro _ _ e' _ h
      split at h <;> simp at h
  · rw [heq]
    refine ⟨?_, nofun, ?_, ?_⟩
    · intro req h
      simp at h
    · intro stream reqTx since h
      exact absurd h (hstate stream reqTx since)
    · intro _ _ e' _ h
      simp at h

/-- What a step from an agreeing state sends. -/
theorem requests_of_step (D : Deps) (inputs : List Input) (s : Config) (i : Input)
    (r : Config × List Output) (h : Agrees inputs s) (hm : Moves D s i r) :
    Requests s i r.1 r.2 := by
  rcases requests_cases D s i r hm with
    ⟨filters, sent, rfl, hcall, rfl⟩ | ⟨site, now, rfl, rfl⟩ |
    ⟨site, reqTx, stream, clock, rfl, hcall, hstate, hr⟩ | ⟨hr, hupdate, hresponse⟩
  · rcases s with ⟨c, call⟩
    simp only at hcall
    subst hcall
    exact requests_updateFilters D c filters sent
  · refine ⟨fun req hreq => ?_, nofun, fun stream reqTx since hs =>
      Or.inr ⟨reqTx, hs, Or.inl rfl⟩, nofun⟩
    simp only [List.mem_singleton, Output.subscribe.injEq] at hreq
    exact ⟨hreq, rfl⟩
  · refine ⟨fun req hreq => absurd hreq (hr.silent req), ?_, ?_, nofun⟩
    · intro stream' clock' hi
      cases hi
      have hfilters : r.1.client.filters = s.client.filters := hr.filters
      -- The channel of the call was filled before its await, with the same map.
      rw [hfilters, hstate, h.fresh site reqTx hcall]
      rfl
    · intro stream' reqTx' since' hs
      rw [hstate, State.connected.injEq] at hs
      rw [← hs.1]
      exact Or.inl ⟨clock, rfl⟩
  · exact ⟨fun req hreq => absurd hreq (hr.silent req),
      fun stream clock hi => absurd hi (hresponse stream clock),
      fun stream reqTx since hs => Or.inr ⟨reqTx, hr.state stream reqTx since hs, Or.inl rfl⟩,
      fun filters sent _ hi => absurd hi (hupdate filters sent)⟩

/-- Over every run of a connected client in which no `update_filters` is
    dropped in the middle of its send: the stored map is valid, the last
    request enqueued on the channel in use is its image, unless the send of
    the last `update_filters` found the receiver gone, and every further step
    sends the map then stored and nothing else. -/
theorem filters_agree (D : Deps) (s t : Config) (inputs : List Input) (os : List Output)
    (hs : Connected D s) (hsent : ∀ filters, Input.updateFilters filters .dropped ∉ inputs)
    (hrun : (grpc D).run s inputs = some (t, os)) :
    (∃ stream since, s.client.state
        = .connected stream ⟨[(filtersToProto s.client.filters, true)]⟩ since) ∧
      t.client.filters.validate = .ok () ∧
      (∀ stream reqTx since, t.client.state = .connected stream reqTx since →
        reqTx.enqueued.getLast? = some (filtersToProto t.client.filters) ∨
          (reqTx.log.getLast? = some (filtersToProto t.client.filters, false) ∧
            lastSend inputs = some .closed)) ∧
      (∀ name : String, (filtersToProto t.client.filters).transactions[name]?
        = (t.client.filters.map[name]?).map filterToProto) ∧
      ∀ i v new, (grpc D).step t i = some (v, new) → Requests t i v new := by
  rcases connected_client D s hs with ⟨_, _, hcall, hvalid, stream, since, hstate⟩
  have h0 : Agrees [] s := by
    refine ⟨hvalid, ?_, fun site reqTx h => ?_⟩
    · intro stream' reqTx' since' h
      rw [hstate, State.connected.injEq] at h
      rw [← h.2.1]
      exact lastSent_fresh [] s.client
    · rw [hcall] at h
      cases h
  -- The invariant speaks about the inputs so far, so the exclusion of dropped
  -- sends is part of it.
  have ht : Agrees inputs t := run_moves D
    (fun as u _ => (∀ filters, Input.updateFilters filters .dropped ∉ as) → Agrees as u)
    (fun as u _ i r hu hm hsent => agrees_step D as u i r
      (fun filters hi => hsent filters (List.mem_append_right as (List.mem_singleton.mpr hi.symm)))
      (hu (fun filters hmem => hsent filters (List.mem_append_left [i] hmem))) hm)
    s t inputs os (fun _ => h0) hrun hsent
  refine ⟨⟨stream, since, hstate⟩, ht.valid, ?_, filtersToProto_get t.client.filters,
    fun i v new hstep =>
      requests_of_step D inputs t i (v, new) ht ((moves_iff D t i (v, new)).mp hstep)⟩
  intro stream' reqTx' since' h
  rcases ht.last stream' reqTx' since' h with hlast | hlast
  · exact Or.inl (enqueued_getLast reqTx' _ hlast)
  · exact Or.inr hlast

/-- A map for one account, set while connected, sent again after a data loss,
    and an empty map refused. -/
def replacedRun : List Input :=
  [.updateFilters (Filters.new.add "one" { includeKeys := ["k"] }) .enqueued, .nextUpdate 0,
    .message (.error ⟨.dataLoss, ""⟩) ⟨0, 0⟩ 0, .channel (.ok ()) 0, .response (.ok 1) ⟨0, 0⟩,
    .dropCall, .updateFilters .new .enqueued]

/-- After that run the server has the map for one account. -/
theorem replacedRun_agrees : ∃ t os,
    (grpc openDeps).run plainStart replacedRun = some (t, os) ∧
    t.client.filters.validate = .ok () ∧
    ∀ stream reqTx since, t.client.state = .connected stream reqTx since →
      reqTx.enqueued.getLast? = some (filtersToProto t.client.filters) := by
  have hrun : ∃ t os, (grpc openDeps).run plainStart replacedRun = some (t, os) :=
    ⟨_, _, rfl⟩
  rcases hrun with ⟨t, os, hrun⟩
  have hsent : ∀ filters, Input.updateFilters filters .dropped ∉ replacedRun := by
    intro filters h
    simp [replacedRun] at h
  rcases filters_agree openDeps plainStart t replacedRun os plainStart_connected hsent hrun
    with ⟨_, hvalid, hlast, _⟩
  refine ⟨t, os, hrun, hvalid, fun stream reqTx since hstate => ?_⟩
  rcases hlast stream reqTx since hstate with h | ⟨_, h⟩
  · exact h
  · cases h

end Grpc

end ShredStream
