import ShredStream.Core.Grpc

/-!
# Steps of the gRPC Client

What one step of the client can do, said once, so that no later proof has to
take the step function apart.

`Moves` is the step function as a relation with one constructor per input
that can be accepted. The frame lemmas say which parts of the client each
stretch leaves alone. `Coherent` ties the await point of the call in progress
to the state of the client: a call sleeps, or reconnects from the
disconnected arm, only while the client is disconnected, and it waits for a
message, or reconnects after a data loss, only while the client still holds
the old connection.

## Main definitions

* `Moves`: The steps, by the input they take.
* `Entered`, `Heard`: What the top of the loop does, and what a message does.
* `Coherent`: The await point fits the state.
* `Ended`: The client is finished and no call is in progress.
* `plainStart`: A freshly connected client, to run the machine on.

## Theorems

* `moves_iff`: The relation is the step function.
* `run_moves`: A relation kept by every move is kept by every run.
* `updateFilters_cases`: What `update_filters` does.
* `entered_enter`, `heard_onMessage`: They do nothing else.
* `coherent_step`, `coherent_run`: The await point always fits the state.
* `ended_step`: A finished client emits nothing but empty answers.
* `ended_run`: Once finished, always finished, and no attempt is made.
-/

namespace ShredStream

namespace Grpc

open GrpcClient Proto

/-- The accepted inputs and what each of them leads to. -/
inductive Moves (D : Deps) : Config → Input → Config × List Output → Prop
  | nextUpdate (c : GrpcClient) (now : Instant) :
      Moves D ⟨c, none⟩ (.nextUpdate now) (settle (c.enter now))
  | updateFilters (c : GrpcClient) (filters : Filters) (sent : Sent) :
      Moves D ⟨c, none⟩ (.updateFilters filters sent)
        (⟨(c.updateFilters D filters sent).1, none⟩, (c.updateFilters D filters sent).2)
  | close (c : GrpcClient) :
      Moves D ⟨c, none⟩ .close (⟨c.close, none⟩, [])
  | slept (c : GrpcClient) :
      Moves D ⟨c, some .sleep⟩ .slept (settle (c.tryConnect .disconnected))
  | channel (c : GrpcClient) (site : Site) (r : Except String Unit) (now : Instant) :
      Moves D ⟨c, some (.connect site)⟩ (.channel r now) (settle (c.onChannel site r now))
  | response (c : GrpcClient) (site : Site) (reqTx : Sender) (r : Except Status StreamId)
      (clock : Clock) :
      Moves D ⟨c, some (.subscribe site reqTx)⟩ (.response r clock)
        (settle (c.onResponse site reqTx r clock))
  | message (c : GrpcClient) (stable : Bool)
      (r : Except Status (Option SubscribeBinaryTransactionsResponse)) (clock : Clock)
      (receivedAt : SystemTime) :
      Moves D ⟨c, some (.message stable)⟩ (.message r clock receivedAt)
        (settle (c.onMessage stable r clock receivedAt))
  | dropCall (c : GrpcClient) (await : Await) :
      Moves D ⟨c, some await⟩ .dropCall (⟨c, none⟩, [])

/-- The relation is the step function. -/
theorem moves_iff (D : Deps) (s : Config) (i : Input) (r : Config × List Output) :
    (grpc D).step s i = some r ↔ Moves D s i r := by
  constructor
  · intro h
    rcases s with ⟨c, _ | await⟩
    · -- No call in progress: only a new call can come.
      cases i <;> simp only [grpc, step, Option.some.injEq, reduceCtorEq] at h
      case nextUpdate now => rw [← h]; exact Moves.nextUpdate c now
      case updateFilters filters sent => rw [← h]; exact Moves.updateFilters c filters sent
      case close => rw [← h]; exact Moves.close c
    · -- A call in progress: what it awaits, or the end of it.
      cases await <;> cases i <;>
        simp only [grpc, step, Option.some.injEq, reduceCtorEq] at h <;> rw [← h]
      case sleep.slept => exact Moves.slept c
      case connect.channel site r now => exact Moves.channel c site r now
      case subscribe.response site reqTx r clock => exact Moves.response c site reqTx r clock
      case message.message stable r clock at_ => exact Moves.message c stable r clock at_
      all_goals exact Moves.dropCall c _
  · intro h
    cases h with
    | dropCall c await => cases await <;> rfl
    | _ => rfl

/-- A relation between the inputs consumed, the client reached and the outputs
    emitted, kept by every move, is kept by every run. -/
theorem run_moves (D : Deps) (I : List Input → Config → List Output → Prop)
    (hmove : ∀ before u os i r, I before u os → Moves D u i r →
      I (before ++ [i]) r.1 (os ++ r.2))
    (s t : Config) (inputs : List Input) (os : List Output) (h0 : I [] s [])
    (h : (grpc D).run s inputs = some (t, os)) : I inputs t os :=
  Machine.run_invariant (grpc D) I
    (fun before u os i u' new hu hstep =>
      hmove before u os i (u', new) hu ((moves_iff D u i (u', new)).mp hstep))
    inputs [] s t [] os h0 h

/-! ### Frame lemmas -/

section Frame

variable (c : GrpcClient)

@[simp]
theorem enter_stats (now : Instant) : (c.enter now).1.stats = c.stats := by
  unfold enter
  cases c.state <;> rfl

@[simp]
theorem enter_everConnected (now : Instant) :
    (c.enter now).1.everConnected = c.everConnected := by
  unfold enter
  cases c.state <;> rfl

@[simp]
theorem afterConnect_stats (site : Site) (r : Except Status Unit) (now : Instant) :
    (c.afterConnect site r now).1.stats = c.stats := by
  cases site <;> cases r <;> simp only [afterConnect, enter_stats]

@[simp]
theorem afterConnect_everConnected (site : Site) (r : Except Status Unit) (now : Instant) :
    (c.afterConnect site r now).1.everConnected = c.everConnected := by
  cases site <;> cases r <;> simp only [afterConnect, enter_everConnected]

end Frame

/-! ### The top of the loop -/

/-- Settling leaves the client as the stretch left it. -/
theorem settle_client (r : GrpcClient × Progress × List Output) : (settle r).1.client = r.1 := by
  rcases r with ⟨c, item | await, os⟩ <;> rfl

theorem enter_finished (c : GrpcClient) (now : Instant) (h : c.state = .finished) :
    settle (c.enter now) = (⟨c, none⟩, [.returned none]) := by
  simp only [enter, h, settle, List.nil_append]

theorem enter_terminal (c : GrpcClient) (now : Instant) (e : StreamError)
    (h : c.state = .terminal e) :
    settle (c.enter now)
      = (⟨{ c with state := .finished }, none⟩, [.returned (some (.error e))]) := by
  simp only [enter, h, settle, List.nil_append]

theorem enter_disconnected (c : GrpcClient) (now : Instant) (h : c.state = .disconnected) :
    settle (c.enter now)
      = (⟨c.backoffDelay.1, some .sleep⟩,
        [.notice (.reconnecting c.backoffDelay.1.attempt c.backoffDelay.2),
          .sleep c.backoffDelay.2]) := by
  simp only [enter, h, settle]

theorem enter_connected (c : GrpcClient) (now : Instant) (stream : StreamId) (reqTx : Sender)
    (since : Instant) (h : c.state = .connected stream reqTx since) :
    settle (c.enter now)
      = (⟨c, some (.message (decide (c.reconnect.resetAfter ≤ since.elapsed now)))⟩, []) := by
  simp only [enter, h, settle]

/-- Where a call stands that has gone back to the top of the loop, and what it
    has shown: it has returned, sleeps, or waits for a message. -/
inductive Entered (c : GrpcClient) (now : Instant) : Config × List Output → Prop
  | finished (h : c.state = .finished) : Entered c now (⟨c, none⟩, [.returned none])
  | terminal (e : StreamError) (h : c.state = .terminal e) :
      Entered c now (⟨{ c with state := .finished }, none⟩, [.returned (some (.error e))])
  | disconnected (h : c.state = .disconnected) :
      Entered c now (⟨c.backoffDelay.1, some .sleep⟩,
        [.notice (.reconnecting c.backoffDelay.1.attempt c.backoffDelay.2),
          .sleep c.backoffDelay.2])
  | connected (stream : StreamId) (reqTx : Sender) (since : Instant)
      (h : c.state = .connected stream reqTx since) :
      Entered c now
        (⟨c, some (.message (decide (c.reconnect.resetAfter ≤ since.elapsed now)))⟩, [])

/-- The top of the loop does one of these things. -/
theorem entered_enter (c : GrpcClient) (now : Instant) : Entered c now (settle (c.enter now)) := by
  cases h : c.state with
  | finished =>
      rw [enter_finished c now h]
      exact Entered.finished h
  | terminal e =>
      rw [enter_terminal c now e h]
      exact Entered.terminal e h
  | disconnected =>
      rw [enter_disconnected c now h]
      exact Entered.disconnected h
  | connected stream reqTx since =>
      rw [enter_connected c now stream reqTx since h]
      exact Entered.connected stream reqTx since h

/-! ### Replacing the map -/

/-- What `update_filters` does: it refuses the map and leaves everything as it
    is, or stores it and sends it if there is a connection. -/
theorem updateFilters_cases (D : Deps) (c : GrpcClient) (filters : Filters) (sent : Sent) :
    (∃ e, filters.validate = .error e ∧ c.updateFilters D filters sent
      = (c, [.filtersUpdated (.error (.invalidFilter (e.toText D.debugText)))])) ∨
    (filters.validate = .ok () ∧ ∃ stream reqTx since, c.state = .connected stream reqTx since ∧
      c.updateFilters D filters sent
        = ({ c with
              filters
              state := .connected stream (reqTx.send (filtersToProto filters) sent) since },
          if sent = .dropped then [] else [.filtersUpdated (.ok ())])) ∨
    (filters.validate = .ok () ∧ (∀ stream reqTx since, c.state ≠ .connected stream reqTx since) ∧
      c.updateFilters D filters sent = ({ c with filters }, [.filtersUpdated (.ok ())])) := by
  unfold updateFilters
  cases hv : filters.validate with
  | error e => exact Or.inl ⟨e, rfl, rfl⟩
  | ok u =>
      right
      cases hs : c.state with
      | connected stream reqTx since => exact Or.inl ⟨rfl, stream, reqTx, since, rfl, rfl⟩
      | disconnected | terminal e | finished =>
          refine Or.inr ⟨rfl, fun stream reqTx since heq => ?_, rfl⟩
          cases heq

/-! ### What a message does -/

/-- What the call does with a message: it gives the connection up and goes back
    to the top, answers a data loss with an attempt, or takes a response, which
    is returned or skipped. -/
inductive Heard (c : GrpcClient) (stable : Bool) (clock : Clock) :
    Except Status (Option SubscribeBinaryTransactionsResponse) → Config × List Output → Prop
  | terminal (status : Status) (e : StreamError) (h : classify status = .terminal e) :
      Heard c stable clock (.error status)
        (settle ({ c with state := .terminal e }.enter clock.first))
  | recoverable (status : Status) (h : classify status = .recoverable) :
      Heard c stable clock (.error status)
        (settle ({ c with state := .disconnected }.enter clock.first))
  | ended :
      Heard c stable clock (.ok none) (settle ({ c with state := .disconnected }.enter clock.first))
  | recent (status : Status) (h : classify status = .dataLoss) (t : Instant)
      (hlast : c.lastDataLoss = some t) (hrecent : t.elapsed clock.first < Duration.fromSecs 10) :
      Heard c stable clock (.error status)
        (settle ({ c with lastDataLoss := some clock.second, state := .disconnected }.enter
          clock.second))
  | immediate (status : Status) (h : classify status = .dataLoss)
      (hlast : ∀ t, c.lastDataLoss = some t → ¬ t.elapsed clock.first < Duration.fromSecs 10) :
      Heard c stable clock (.error status)
        (⟨{ c with lastDataLoss := some clock.second }, some (.connect .dataLoss)⟩, [.attempt])
  | skipped (response : SubscribeBinaryTransactionsResponse) (stats : Stats) :
      Heard c stable clock (.ok (some response))
        (settle ({ c with attempt := if stable then 0 else c.attempt, stats }.enter clock.first))
  | returned (response : SubscribeBinaryTransactionsResponse) (stats : Stats)
      (update : TransactionUpdate) :
      Heard c stable clock (.ok (some response))
        (⟨{ c with attempt := if stable then 0 else c.attempt, stats }, none⟩,
          [.returned (some (.ok update))])

/-- Taking a response changes the counters only. -/
theorem toUpdate_cases (c : GrpcClient) (receivedAt : SystemTime)
    (response : SubscribeBinaryTransactionsResponse) :
    ∃ stats, c.toUpdate receivedAt response = ({ c with stats }, none) ∨
      ∃ update, c.toUpdate receivedAt response = ({ c with stats }, some update) := by
  unfold toUpdate
  split
  · exact ⟨_, Or.inl rfl⟩
  · split
    · exact ⟨_, Or.inl rfl⟩
    · split
      · exact ⟨_, Or.inl rfl⟩
      · exact ⟨_, Or.inr ⟨_, rfl⟩⟩

/-- A message does one of these things. -/
theorem heard_onMessage (c : GrpcClient) (stable : Bool)
    (r : Except Status (Option SubscribeBinaryTransactionsResponse)) (clock : Clock)
    (receivedAt : SystemTime) :
    Heard c stable clock r (settle (c.onMessage stable r clock receivedAt)) := by
  rcases r with status | _ | response
  · rcases hc : classify status with e | _ | _
    · simp only [onMessage, hc]
      exact Heard.terminal status e hc
    · rcases hlast : c.lastDataLoss with _ | t
      · simp only [onMessage, hc, hlast, Option.any_none, Bool.false_eq_true, if_false]
        exact Heard.immediate status hc (fun t ht => by rw [hlast] at ht; cases ht)
      · by_cases hrecent : t.elapsed clock.first < Duration.fromSecs 10
        · simp only [onMessage, hc, hlast, Option.any_some, hrecent, decide_true, if_true]
          exact Heard.recent status hc t hlast hrecent
        · simp only [onMessage, hc, hlast, Option.any_some, hrecent, decide_false,
            Bool.false_eq_true, if_false]
          refine Heard.immediate status hc (fun t' ht => ?_)
          rw [hlast, Option.some.injEq] at ht
          rwa [← ht]
    · simp only [onMessage, hc]
      exact Heard.recoverable status hc
  · exact Heard.ended
  · -- The counter is reset first, which `toUpdate` does not look at.
    rcases toUpdate_cases { c with attempt := if stable then 0 else c.attempt } receivedAt response
      with ⟨stats, heq | ⟨update, heq⟩⟩
    · have hskipped : Heard c stable clock _ _ := Heard.skipped response stats
      cases stable <;>
      · simp only [if_true, Bool.false_eq_true, if_false] at heq hskipped
        simpa only [onMessage, if_true, Bool.false_eq_true, if_false, heq] using hskipped
    · have hreturned : Heard c stable clock _ _ := Heard.returned response stats update
      cases stable <;>
      · simp only [if_true, Bool.false_eq_true, if_false] at heq hreturned
        simpa only [onMessage, if_true, Bool.false_eq_true, if_false, heq, settle, List.nil_append]
          using hreturned

/-! ### The await point fits the state -/

/-- A call that sleeps or reconnects from the disconnected arm finds the
    client disconnected; any other suspended call finds it connected. -/
def Coherent (s : Config) : Prop :=
  match s.call with
  | none => True
  | some .sleep => s.client.state = .disconnected
  | some (.connect .disconnected) => s.client.state = .disconnected
  | some (.subscribe .disconnected _) => s.client.state = .disconnected
  | some _ => ∃ stream reqTx since, s.client.state = .connected stream reqTx since

theorem coherent_enter (c : GrpcClient) (now : Instant) : Coherent (settle (c.enter now)).1 := by
  have hentered := entered_enter c now
  generalize settle (c.enter now) = q at hentered ⊢
  cases hentered with
  | finished | terminal => trivial
  | disconnected h => exact h
  | connected stream reqTx since h => exact ⟨stream, reqTx, since, h⟩

theorem coherent_afterConnect (c : GrpcClient) (site : Site) (r : Except Status Unit)
    (now : Instant) : Coherent (settle (c.afterConnect site r now)).1 := by
  cases site <;> cases r
  case dataLoss.error e => exact coherent_enter { c with state := .disconnected } now
  all_goals exact coherent_enter c now

theorem settle_append (c : GrpcClient) (p : Progress) (os os' : List Output) :
    settle (c, p, os ++ os') = ((settle (c, p, os')).1, os ++ (settle (c, p, os')).2) := by
  cases p with
  | ready item => simp only [settle, List.append_assoc]
  | pending await => rfl

/-- The end of a successful re-subscription: the new state, and the notice
    before whatever the loop does next. -/
theorem onResponse_ok (c : GrpcClient) (site : Site) (reqTx : Sender) (stream : StreamId)
    (clock : Clock) :
    settle (c.onResponse site reqTx (.ok stream) clock)
      = ((settle ((c.subscribed stream reqTx clock.first).1.enter clock.second)).1,
        (c.subscribed stream reqTx clock.first).2
          ++ (settle ((c.subscribed stream reqTx clock.first).1.enter clock.second)).2) := by
  -- After a success both callers of `try_connect` go back to the top.
  have hsite : ∀ c : GrpcClient, c.afterConnect site (.ok ()) clock.second
      = c.enter clock.second := by
    intro c
    cases site <;> rfl
  simp only [onResponse, hsite]
  exact settle_append _ _ _ _

/-- A step keeps the await point and the state in agreement. -/
theorem coherent_step (D : Deps) (s : Config) (i : Input) (r : Config × List Output)
    (hs : Coherent s) (hm : Moves D s i r) : Coherent r.1 := by
  cases hm with
  | nextUpdate c now => exact coherent_enter c now
  | updateFilters c filters sent => trivial
  | close c => trivial
  | slept c => exact hs
  | channel c site r now =>
      cases r with
      | error e => exact coherent_afterConnect c site _ now
      | ok u => cases site <;> exact hs
  | response c site reqTx r clock =>
      cases r with
      | error status => exact coherent_afterConnect c site _ _
      | ok stream =>
          rw [onResponse_ok]
          exact coherent_enter _ _
  | message c stable r clock receivedAt =>
      have hheard := heard_onMessage c stable r clock receivedAt
      generalize settle (c.onMessage stable r clock receivedAt) = q at hheard ⊢
      cases hheard with
      | terminal | recoverable | ended | recent | skipped => exact coherent_enter _ _
      | immediate => exact hs
      | returned => trivial
  | dropCall c await => trivial

theorem coherent_run (D : Deps) (s t : Config) (inputs : List Input) (os : List Output)
    (hs : Connected D s) (h : (grpc D).run s inputs = some (t, os)) : Coherent t := by
  rcases hs with ⟨cfg, sinceEpoch, stream, now, _, hcall⟩
  have h0 : Coherent s := by
    rw [Coherent, hcall]
    trivial
  exact run_moves D (fun _ u _ => Coherent u) (fun _ u _ i r hu hm => coherent_step D u i r hu hm)
    s t inputs os h0 h

/-! ### A finished client -/

/-- The client is finished and no call is in progress. -/
def Ended (s : Config) : Prop :=
  s.client.state = .finished ∧ s.call = none

/-- A finished client stays finished; all it emits are empty answers and the
    results of `update_filters`. -/
theorem ended_step (D : Deps) (s : Config) (i : Input) (r : Config × List Output) (hs : Ended s)
    (hm : Moves D s i r) :
    Ended r.1 ∧ ∀ o ∈ r.2, o = .returned none ∨ ∃ x, o = .filtersUpdated x := by
  rcases hs with ⟨hstate, hcall⟩
  cases hm with
  | nextUpdate c now =>
      rw [enter_finished c now hstate]
      refine ⟨⟨hstate, rfl⟩, ?_⟩
      intro o ho
      exact Or.inl (List.mem_singleton.mp ho)
  | updateFilters c filters sent =>
      simp only at hstate
      cases hv : filters.validate with
      | error e =>
          simp only [updateFilters, hv]
          refine ⟨⟨hstate, rfl⟩, ?_⟩
          intro o ho
          exact Or.inr ⟨_, List.mem_singleton.mp ho⟩
      | ok u =>
          simp only [updateFilters, hv, hstate]
          refine ⟨⟨rfl, rfl⟩, ?_⟩
          intro o ho
          exact Or.inr ⟨_, List.mem_singleton.mp ho⟩
  | close c =>
      refine ⟨⟨rfl, rfl⟩, ?_⟩
      intro o ho
      exact absurd ho List.not_mem_nil
  | slept | channel | response | message | dropCall =>
      -- These need a call in progress.
      cases hcall

theorem ended_run (D : Deps) (s t : Config) (inputs : List Input) (os : List Output)
    (hs : Ended s) (h : (grpc D).run s inputs = some (t, os)) :
    Ended t ∧ ∀ o ∈ os, o = .returned none ∨ ∃ r, o = .filtersUpdated r := by
  refine run_moves D
    (fun _ u os => Ended u ∧ ∀ o ∈ os, o = .returned none ∨ ∃ r, o = .filtersUpdated r)
    ?_ s t inputs os ⟨hs, fun o ho => absurd ho List.not_mem_nil⟩ h
  intro _ u os i r hu hm
  rcases ended_step D u i r hu.1 hm with ⟨hu', hnew⟩
  refine ⟨hu', fun o ho => ?_⟩
  rcases List.mem_append.mp ho with ho | ho
  · exact hu.2 o ho
  · exact hnew o ho

/-! ### A client just connected -/

/-- The client that `connect` starts from, where none of its checks fails. -/
theorem prepare_eq (D : Deps) (cfg : GrpcConfig) (sinceEpoch : Option Nat) (c : GrpcClient)
    (h : prepare D cfg sinceEpoch = .ok c) : cfg.filters.validate = .ok () ∧ ∃ endpoint auth, c =
      { endpoint, auth, filters := cfg.filters, state := .disconnected, attempt := 0
        everConnected := false, lastDataLoss := none, jitter := Jitter.new sinceEpoch
        reconnect := cfg.reconnect, stats := {} } := by
  unfold prepare at h
  -- Each check that fails ends `connect`; past them all stands the client.
  rcases hv : cfg.filters.validate with e | u
  · rw [hv] at h
    cases h
  rcases hn : normalizeEndpoint cfg.endpoint with e | url
  · rw [hv, hn] at h
    cases h
  rw [hv, hn] at h
  simp only [Except.mapError, bind, Except.bind] at h
  by_cases huri : D.validUri url = true
  · rw [if_pos huri] at h
    rcases ha : authOf D cfg with e | auth
    · rw [ha] at h
      cases h
    · rw [ha] at h
      exact ⟨rfl, _, auth, (Except.ok.inj h).symm⟩
  · rw [if_neg huri] at h
    cases h

/-- What `connect` starts from: nothing counted, never connected, no data
    loss, and a map it has validated. -/
theorem prepare_client (D : Deps) (cfg : GrpcConfig) (sinceEpoch : Option Nat) (c : GrpcClient)
    (h : prepare D cfg sinceEpoch = .ok c) :
    c.stats = {} ∧ c.everConnected = false ∧ c.lastDataLoss = none ∧
      c.filters.validate = .ok () := by
  rcases prepare_eq D cfg sinceEpoch c h with ⟨hv, endpoint, auth, rfl⟩
  exact ⟨rfl, rfl, rfl, hv⟩

/-- A connected client is what `connect` started from, subscribed. -/
theorem connected_prepared (D : Deps) (s : Config) (h : Connected D s) :
    ∃ cfg sinceEpoch c stream now, prepare D cfg sinceEpoch = .ok c ∧
      s.client = (c.subscribed stream c.freshSender now).1 ∧ s.call = none := by
  rcases h with ⟨cfg, sinceEpoch, stream, now, hconnect, hcall⟩
  unfold connect at hconnect
  rcases hp : prepare D cfg sinceEpoch with e | c
  · rw [hp] at hconnect
    cases hconnect
  rw [hp] at hconnect
  exact ⟨cfg, sinceEpoch, c, stream, now, hp, (Except.ok.inj hconnect).symm, hcall⟩

/-- What `connect` returns: nothing counted, and the validated map sent on the
    new connection. -/
theorem connected_client (D : Deps) (s : Config) (h : Connected D s) :
    s.client.stats = {} ∧ s.client.everConnected = true ∧ s.call = none ∧
      s.client.filters.validate = .ok () ∧
      ∃ stream since, s.client.state = .connected stream s.client.freshSender since := by
  rcases connected_prepared D s h with ⟨cfg, sinceEpoch, c, stream, now, hp, hclient, hcall⟩
  rcases prepare_client D cfg sinceEpoch c hp with ⟨hstats, hever, _, hvalid⟩
  rw [hclient]
  refine ⟨?_, rfl, hcall, hvalid, stream, now, rfl⟩
  simp only [subscribed, hever, Bool.false_eq_true, if_false, hstats]

/-! ### A client to run -/

/-- Third-party functions that accept everything. -/
def openDeps : Deps where
  validUri _ := true
  validMetadata _ := true
  statusText status := status.message
  debugText text := "\"" ++ text ++ "\""

/-- A subscription to everything. -/
def plainConfig : GrpcConfig :=
  ({ endpoint := "localhost", token := "token" } : GrpcConfig).filter "all" .all

/-- The client `connect` returns for that configuration. -/
def plainStart : Config where
  client :=
    { endpoint := { uri := "http://localhost:9991", connectTimeout := Duration.fromSecs 5 }
      auth := ⟨"authorization", "Bearer token"⟩
      filters := plainConfig.filters
      state := .connected 0 ⟨[(filtersToProto plainConfig.filters, true)]⟩ 0
      attempt := 0
      everConnected := true
      lastDataLoss := none
      jitter := Jitter.new none
      reconnect := {}
      stats := {} }
  call := none

theorem plainStart_connected : Connected openDeps plainStart :=
  ⟨plainConfig, none, 0, 0, rfl, rfl⟩

end Grpc

end ShredStream
