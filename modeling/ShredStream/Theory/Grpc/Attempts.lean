import ShredStream.Theory.Grpc.Step

/-!
# Connection Attempts

Two places in the loop of `next_update` call `try_connect`. The disconnected
arm does it after a sleep. The connected arm does it at once, when the stream
reports a data loss and the loss before it is not recent. Nothing else paces
the client, so whether it can storm a server depends on what these two places
allow over a whole run.

The sleep is always one that was just computed, announced and begun: a call
stands at the timer only since the step before. And the clock of the last
data loss is kept across calls and connections, also when the loss is
answered with a backoff, so a loss that is answered at once comes ten seconds
after every loss before it.

A data loss here is a status of the response stream. The answer to a
re-subscription is not classified, whatever its code; like any attempt that
fails it leads to a backoff.

## Main definitions

* `readings`, `NonDecreasing`: The clock over a run.
* `lossesOf`: The data losses among the inputs.
* `BacksOff`: A step that begins a backoff.
* `Paced`: What holds of the attempts of a run.

## Theorems

* `lastDataLoss_run`: The client remembers the last data loss.
* `sleeps_step`: A call goes to sleep only by backing off.
* `attempt_step`: The two ways an attempt is made.
* `attempts_paced`: Every run is paced.
-/

namespace ShredStream

namespace Grpc

open GrpcClient Proto

/-- The readings of the monotonic clock that an input brings. -/
def readings : Input → List Instant
  | .nextUpdate now => [now]
  | .channel _ now => [now]
  | .response _ clock => [clock.first, clock.second]
  | .message _ clock _ => [clock.first, clock.second]
  | _ => []

/-- The clock never goes back. -/
def NonDecreasing (inputs : List Input) : Prop :=
  (inputs.flatMap readings).Pairwise (· ≤ ·)

instance (inputs : List Input) : Decidable (NonDecreasing inputs) :=
  inferInstanceAs (Decidable ((inputs.flatMap readings).Pairwise (· ≤ ·)))

/-- The clock of a data loss on the response stream. -/
def lossOf : Input → Option Clock
  | .message (.error status) clock _ => if classify status = .dataLoss then some clock else none
  | _ => none

/-- The data losses received, oldest first. -/
def lossesOf (inputs : List Input) : List Clock := inputs.filterMap lossOf

/-- The step counts one more attempt, announces it with its delay, and puts
    the call to sleep for that long. -/
def BacksOff (u v : Config) (new : List Output) : Prop :=
  v.call = some .sleep ∧ v.client.attempt = saturatingSucc u.client.attempt ∧
    ∃ delay, delay = Duration.fromSecsF64
        (backoffBound u.client.reconnect v.client.attempt * u.client.jitter.next.2) ∧
      new = [.notice (.reconnecting v.client.attempt delay), .sleep delay]

/-- The attempt is made when the timer fires, and the step before this one
    began the backoff. -/
def AfterBackoff (D : Deps) (s : Config) (before : List Input) (i : Input) (u : Config) : Prop :=
  i = .slept ∧ ∃ earlier j w new, before = earlier ++ [j] ∧
    (grpc D).Takes s before earlier j w u new ∧ BacksOff w u new

/-- The attempt answers a data loss, received ten seconds after every data
    loss before it. -/
def Immediate (before : List Input) (i : Input) : Prop :=
  ∃ clock, lossOf i = some clock ∧
    ∀ loss ∈ lossesOf before, loss.second + Duration.fromSecs 10 ≤ clock.first

/-- The answer to a connection attempt is that it failed. -/
def Failed : Input → Prop
  | .channel (.error _) _ => True
  | .response (.error _) _ => True
  | _ => False

/-- The attempts of a run: each comes after a backoff or is immediate, the
    immediate ones are ten seconds apart, and one that fails is followed by a
    backoff at once. -/
structure Paced (D : Deps) (s : Config) (inputs : List Input) : Prop where
  attempts : ∀ before i u v new, (grpc D).Takes s inputs before i u v new →
    Output.attempt ∈ new → new = [.attempt] ∧ (AfterBackoff D s before i u ∨ Immediate before i)
  apart : ∀ before i u v new before' i' u' v' new' clock clock',
    (grpc D).Takes s inputs before i u v new → Output.attempt ∈ new → lossOf i = some clock →
    (grpc D).Takes s inputs before' i' u' v' new' → Output.attempt ∈ new' →
    lossOf i' = some clock' → before.length < before'.length →
      clock.second + Duration.fromSecs 10 ≤ clock'.first
  failing : ∀ before i u v new, (grpc D).Takes s inputs before i u v new → Failed i →
    BacksOff u v new

/-! ### The clock of the last data loss -/

section Frame

variable (c : GrpcClient)

@[simp]
theorem enter_lastDataLoss (now : Instant) : (c.enter now).1.lastDataLoss = c.lastDataLoss := by
  unfold enter
  cases c.state <;> rfl

@[simp]
theorem afterConnect_lastDataLoss (site : Site) (r : Except Status Unit) (now : Instant) :
    (c.afterConnect site r now).1.lastDataLoss = c.lastDataLoss := by
  cases site <;> cases r <;> simp only [afterConnect, enter_lastDataLoss]

end Frame

@[simp] theorem lossesOf_append (is js : List Input) :
    lossesOf (is ++ js) = lossesOf is ++ lossesOf js := List.filterMap_append

theorem lossesOf_singleton (i : Input) : lossesOf [i] = (lossOf i).toList := by
  cases h : lossOf i with
  | none => exact List.filterMap_cons_none h
  | some clock => exact List.filterMap_cons_some h

/-- A message leaves the clock alone unless it is a data loss, which sets
    it. -/
theorem lastDataLoss_message (c : GrpcClient) (stable : Bool)
    (r : Except Status (Option SubscribeBinaryTransactionsResponse)) (clock : Clock)
    (receivedAt : SystemTime) :
    (settle (c.onMessage stable r clock receivedAt)).1.client.lastDataLoss
      = ((lossOf (.message r clock receivedAt)).map (fun loss => loss.second)).or
          c.lastDataLoss := by
  have hheard := heard_onMessage c stable r clock receivedAt
  generalize settle (c.onMessage stable r clock receivedAt) = q at hheard ⊢
  cases hheard with
  | terminal status e hc =>
      rw [settle_client, enter_lastDataLoss, lossOf, hc]
      rfl
  | recoverable status hc =>
      rw [settle_client, enter_lastDataLoss, lossOf, hc]
      rfl
  | recent status hc =>
      rw [settle_client, enter_lastDataLoss, lossOf, if_pos hc]
      rfl
  | immediate status hc =>
      rw [lossOf, if_pos hc]
      rfl
  | ended | skipped =>
      rw [settle_client, enter_lastDataLoss]
      rfl
  | returned => rfl

/-- Only a data loss sets the clock. -/
theorem lastDataLoss_step (D : Deps) (u : Config) (i : Input) (r : Config × List Output)
    (hm : Moves D u i r) : r.1.client.lastDataLoss
      = ((lossOf i).map (fun loss => loss.second)).or u.client.lastDataLoss := by
  cases hm with
  | message c stable r clock receivedAt => exact lastDataLoss_message c stable r clock receivedAt
  | nextUpdate c now =>
      rw [settle_client]
      exact enter_lastDataLoss c now
  | updateFilters c filters sent =>
      rcases updateFilters_cases D c filters sent with ⟨e, _, heq⟩ |
        ⟨_, stream, reqTx, since, _, heq⟩ | ⟨_, _, heq⟩ <;>
      · rw [heq]
        rfl
  | channel c site r now =>
      rw [settle_client]
      cases r with
      | error e => exact afterConnect_lastDataLoss c site _ now
      | ok u => rfl
  | response c site reqTx r clock =>
      rw [settle_client]
      cases r with
      | error status => exact afterConnect_lastDataLoss c site _ _
      | ok stream =>
            exact afterConnect_lastDataLoss (c.subscribed stream reqTx clock.first).1 site _ _
  | close | slept | dropCall => rfl

/-- The client remembers when the last data loss was received, and nothing
    else. -/
theorem lastDataLoss_run (D : Deps) (s t : Config) (inputs : List Input) (os : List Output)
    (hs : Connected D s) (h : (grpc D).run s inputs = some (t, os)) :
    t.client.lastDataLoss = (lossesOf inputs).getLast?.map (fun loss => loss.second) := by
  have h0 : s.client.lastDataLoss = none := by
    rcases connected_prepared D s hs with ⟨cfg, sinceEpoch, c, stream, now, hp, hclient, _⟩
    rw [hclient]
    exact (prepare_client D cfg sinceEpoch c hp).2.2.1
  refine run_moves D
    (fun inputs u _ =>
      u.client.lastDataLoss = (lossesOf inputs).getLast?.map (fun loss => loss.second))
    ?_ s t inputs os h0 h
  intro before u os i r hu hm
  rw [lastDataLoss_step D u i r hm, hu, lossesOf_append, lossesOf_singleton]
  cases lossOf i with
  | none =>
      rw [Option.toList_none, List.append_nil]
      rfl
  | some clock =>
      rw [Option.toList_some, List.getLast?_concat]
      rfl

/-! ### Going to sleep -/

/-- A disconnected client that enters the loop backs off. -/
theorem enter_backsOff (u : Config) (c : GrpcClient) (now : Instant)
    (hstate : c.state = .disconnected) (hattempt : c.attempt = u.client.attempt)
    (hreconnect : c.reconnect = u.client.reconnect) (hjitter : c.jitter = u.client.jitter) :
    BacksOff u (settle (c.enter now)).1 (settle (c.enter now)).2 := by
  rw [enter_disconnected c now hstate]
  refine ⟨rfl, ?_, c.backoffDelay.2, ?_, rfl⟩
  · rw [← hattempt]
    rfl
  · rw [← hreconnect, ← hjitter]
    rfl

/-- Only a disconnected client sleeps. -/
theorem enter_sleeps (c : GrpcClient) (now : Instant)
    (h : (settle (c.enter now)).1.call = some .sleep) : c.state = .disconnected := by
  have hentered := entered_enter c now
  generalize settle (c.enter now) = q at hentered h
  cases hentered with
  | disconnected hs => exact hs
  | finished | terminal | connected => cases h

/-- An attempt that fails is followed by a backoff, wherever it was made. -/
theorem failed_backsOff (c : GrpcClient) (await : Await) (site : Site) (e : Status) (now : Instant)
    (h : site = .disconnected → c.state = .disconnected) :
    BacksOff ⟨c, some await⟩ (settle (c.afterConnect site (.error e) now)).1
      (settle (c.afterConnect site (.error e) now)).2 := by
  cases site with
  | disconnected => exact enter_backsOff ⟨c, some await⟩ c now (h rfl) rfl rfl rfl
  | dataLoss =>
      exact enter_backsOff ⟨c, some await⟩ { c with state := .disconnected } now rfl rfl rfl rfl

/-- So an input that says so begins one. -/
theorem failed_step (D : Deps) (u : Config) (i : Input) (r : Config × List Output)
    (hu : Coherent u) (hm : Moves D u i r) (hi : Failed i) : BacksOff u r.1 r.2 := by
  cases hm with
  | channel c site r now =>
      cases r with
      | ok u => exact hi.elim
      | error e =>
          refine failed_backsOff c (.connect site) site _ now (fun hsite => ?_)
          rw [hsite] at hu
          exact hu
  | response c site reqTx r clock =>
      cases r with
      | ok stream => exact hi.elim
      | error status =>
          refine failed_backsOff c (.subscribe site reqTx) site _ _ (fun hsite => ?_)
          rw [hsite] at hu
          exact hu
  | nextUpdate | updateFilters | close | slept | message | dropCall => exact hi.elim

/-- A message that puts the call to sleep has cost the connection. -/
theorem message_sleeps (c : GrpcClient) (stable : Bool)
    (r : Except Status (Option SubscribeBinaryTransactionsResponse)) (clock : Clock)
    (receivedAt : SystemTime) (hu : Coherent ⟨c, some (.message stable)⟩)
    (hsleep : (settle (c.onMessage stable r clock receivedAt)).1.call = some .sleep) :
    BacksOff ⟨c, some (.message stable)⟩ (settle (c.onMessage stable r clock receivedAt)).1
      (settle (c.onMessage stable r clock receivedAt)).2 := by
  have hheard := heard_onMessage c stable r clock receivedAt
  generalize settle (c.onMessage stable r clock receivedAt) = q at hheard hsleep ⊢
  cases hheard with
  | terminal status e =>
      rw [enter_terminal _ _ e rfl] at hsleep
      cases hsleep
  | recoverable | ended | recent => exact enter_backsOff _ _ _ rfl rfl rfl rfl
  | immediate | returned => cases hsleep
  | skipped response stats =>
      -- A response leaves the connection in place.
      rcases hu with ⟨stream, reqTx, since, hstate⟩
      cases (enter_sleeps _ clock.first hsleep).symm.trans hstate

/-- A call goes to sleep only by backing off. -/
theorem sleeps_step (D : Deps) (u : Config) (i : Input) (r : Config × List Output)
    (hu : Coherent u) (hm : Moves D u i r) (hsleep : r.1.call = some .sleep) :
    BacksOff u r.1 r.2 := by
  cases hm with
  | nextUpdate c now => exact enter_backsOff _ c now (enter_sleeps c now hsleep) rfl rfl rfl
  | channel c site r now =>
      cases r with
      | ok u => cases hsleep
      | error e => exact failed_step D _ _ _ hu (Moves.channel c site (.error e) now) trivial
  | response c site reqTx r clock =>
      cases r with
      | error status =>
          exact failed_step D _ _ _ hu (Moves.response c site reqTx (.error status) clock) trivial
      | ok stream =>
          rw [onResponse_ok] at hsleep
          have hdisc := enter_sleeps _ clock.second hsleep
          cases hdisc
  | message c stable r clock receivedAt =>
      exact message_sleeps c stable r clock receivedAt hu hsleep
  | updateFilters | close | slept | dropCall => cases hsleep

/-! ### Making an attempt -/

/-- The top of the loop makes no attempt. -/
theorem enter_no_attempt (c : GrpcClient) (now : Instant) :
    Output.attempt ∉ (settle (c.enter now)).2 := by
  have hentered := entered_enter c now
  generalize settle (c.enter now) = q at hentered ⊢
  cases hentered with
  | finished | terminal => simp only [List.mem_singleton, reduceCtorEq, not_false_eq_true]
  | disconnected =>
      simp only [List.mem_cons, reduceCtorEq, List.not_mem_nil, or_self, not_false_eq_true]
  | connected => exact List.not_mem_nil

/-- Nor does the end of `try_connect`. -/
theorem afterConnect_no_attempt (c : GrpcClient) (site : Site) (r : Except Status Unit)
    (now : Instant) : Output.attempt ∉ (settle (c.afterConnect site r now)).2 := by
  cases site <;> cases r
  case dataLoss.error e => exact enter_no_attempt { c with state := .disconnected } now
  all_goals exact enter_no_attempt c now

/-- What has elapsed is the time between two readings. -/
theorem elapsed_ge (t now : Instant) (h : ¬ t.elapsed now < Duration.fromSecs 10) :
    t + Duration.fromSecs 10 ≤ now := by
  have hgap : ∀ a b : Nat, ¬ b - a < 10 * 10 ^ 9 → a + 10 * 10 ^ 9 ≤ b := by omega
  exact hgap t now h

/-- A message makes an attempt only when it is a data loss that is not recent. -/
theorem message_attempt (c : GrpcClient) (stable : Bool)
    (r : Except Status (Option SubscribeBinaryTransactionsResponse)) (clock : Clock)
    (receivedAt : SystemTime)
    (h : Output.attempt ∈ (settle (c.onMessage stable r clock receivedAt)).2) :
    (settle (c.onMessage stable r clock receivedAt)).2 = [.attempt] ∧
      lossOf (.message r clock receivedAt) = some clock ∧
      ∀ t, c.lastDataLoss = some t → t + Duration.fromSecs 10 ≤ clock.first := by
  have hheard := heard_onMessage c stable r clock receivedAt
  generalize settle (c.onMessage stable r clock receivedAt) = q at hheard h ⊢
  cases hheard with
  | terminal | recoverable | ended | recent | skipped => exact absurd h (enter_no_attempt _ _)
  | immediate status hc hlast =>
      exact ⟨rfl, by rw [lossOf, if_pos hc], fun t ht => elapsed_ge t clock.first (hlast t ht)⟩
  | returned response stats update => cases List.mem_singleton.mp h

/-- The two ways an attempt is made. -/
theorem attempt_step (D : Deps) (u : Config) (i : Input) (r : Config × List Output)
    (hm : Moves D u i r) (h : Output.attempt ∈ r.2) :
    r.2 = [.attempt] ∧ ((i = .slept ∧ u.call = some .sleep) ∨ ∃ clock, lossOf i = some clock ∧
      ∀ t, u.client.lastDataLoss = some t → t + Duration.fromSecs 10 ≤ clock.first) := by
  cases hm with
  | slept c => exact ⟨rfl, Or.inl ⟨rfl, rfl⟩⟩
  | message c stable r clock receivedAt =>
      rcases message_attempt c stable r clock receivedAt h with ⟨hnew, hloss, hlast⟩
      exact ⟨hnew, Or.inr ⟨clock, hloss, hlast⟩⟩
  | nextUpdate c now => exact absurd h (enter_no_attempt c now)
  | updateFilters c filters sent =>
      exfalso
      rcases updateFilters_cases D c filters sent with ⟨e, _, heq⟩ |
        ⟨_, stream, reqTx, since, _, heq⟩ | ⟨_, _, heq⟩
      · simp only [heq, List.mem_singleton, reduceCtorEq] at h
      · cases sent <;> simp only [heq, reduceCtorEq, if_true, if_false, List.mem_singleton,
          List.not_mem_nil] at h
      · simp only [heq, List.mem_singleton, reduceCtorEq] at h
  | channel c site r now =>
      exfalso
      cases r with
      | error e => exact afterConnect_no_attempt c site _ now h
      | ok u => simp only [onChannel, settle, List.mem_singleton, reduceCtorEq] at h
  | response c site reqTx r clock =>
      exfalso
      cases r with
      | error status => exact afterConnect_no_attempt c site _ _ h
      | ok stream =>
          rw [onResponse_ok] at h
          rcases List.mem_append.mp h with h | h
          · simp only [subscribed] at h
            split at h <;> simp only [List.mem_singleton, List.not_mem_nil, reduceCtorEq] at h
          · exact enter_no_attempt _ _ h
  | close | dropCall => exact absurd h List.not_mem_nil

/-! ### Over a run -/

/-- The last of a list that never goes down is its largest. -/
theorem le_getLast (l : List Nat) (h : l.Pairwise (· ≤ ·)) (x y : Nat) (hx : x ∈ l)
    (hy : l.getLast? = some y) : x ≤ y := by
  rcases List.getLast?_eq_some_iff.mp hy with ⟨front, rfl⟩
  rcases List.mem_append.mp hx with hx | hx
  · exact (List.pairwise_append.mp h).2.2 x hx y (List.mem_singleton_self y)
  · exact Nat.le_of_eq (List.mem_singleton.mp hx)

/-- The clock is read at each data loss. -/
theorem losses_sublist (inputs : List Input) :
    ((lossesOf inputs).map (fun loss => loss.second)).Sublist (inputs.flatMap readings) := by
  induction inputs with
  | nil => exact List.Sublist.slnil
  | cons i inputs ih =>
      have hhead : ((lossesOf [i]).map (fun loss => loss.second)).Sublist (readings i) := by
        rw [lossesOf_singleton]
        rcases i with _ | _ | _ | _ | ⟨r, clock, receivedAt⟩ | _ | _ | _
        case message =>
          rcases r with status | response
          · by_cases hc : classify status = .dataLoss
            · rw [lossOf, if_pos hc]
              exact List.Sublist.cons _ (List.Sublist.refl _)
            · rw [lossOf, if_neg hc]
              exact List.nil_sublist _
          · exact List.nil_sublist _
        all_goals exact List.nil_sublist _
      rw [← List.singleton_append, lossesOf_append, List.map_append, List.singleton_append,
        List.flatMap_cons]
      exact hhead.append ih

/-- Where the last data loss is ten seconds ago, so is every one before. -/
theorem losses_old (before : List Input) (clock : Clock) (hclock : NonDecreasing before)
    (h : ∀ t, (lossesOf before).getLast?.map (fun loss => loss.second) = some t →
      t + Duration.fromSecs 10 ≤ clock.first) :
    ∀ loss ∈ lossesOf before, loss.second + Duration.fromSecs 10 ≤ clock.first := by
  intro loss hloss
  -- The losses are in the order of the clock, so the last is the latest.
  have hpair := hclock.sublist (losses_sublist before)
  rcases hlast : (lossesOf before).getLast? with _ | last
  · rw [List.getLast?_eq_none_iff.mp hlast] at hloss
    exact absurd hloss List.not_mem_nil
  · have hle := le_getLast _ hpair loss.second last.second (List.mem_map_of_mem hloss)
      (by rw [List.getLast?_map, hlast]; rfl)
    exact Nat.le_trans (Nat.add_le_add_right hle _) (h last.second (by rw [hlast]; rfl))

/-- The clock of a run is that of each of its parts. -/
theorem nonDecreasing_left (before after : List Input) (h : NonDecreasing (before ++ after)) :
    NonDecreasing before := by
  rw [NonDecreasing, List.flatMap_append] at h
  exact (List.pairwise_append.mp h).1

/-- A call that sleeps was put to sleep by the step before. -/
theorem slept_afterBackoff (D : Deps) (s u : Config) (before : List Input) (os : List Output)
    (hs : Connected D s) (h : (grpc D).run s before = some (u, os))
    (hsleep : u.call = some .sleep) :
    AfterBackoff D s before .slept u := by
  have hne : before ≠ [] := by
    rintro rfl
    rw [Machine.run_nil, Option.some.injEq, Prod.mk.injEq] at h
    rw [← h.1, (connected_client D s hs).2.2.1] at hsleep
    cases hsleep
  -- A connected client does not start asleep, so some step put it there.
  rcases Machine.takes_last (grpc D) s u before os hne h with ⟨earlier, j, w, new, hbefore, htakes⟩
  refine ⟨rfl, earlier, j, w, new, hbefore, htakes, ?_⟩
  rcases htakes with ⟨_, os₁, _, hrun, hstep⟩
  exact sleeps_step D w j (u, new) (coherent_run D s w earlier os₁ hs hrun)
    ((moves_iff D w j (u, new)).mp hstep) hsleep

/-- The attempts of every run from a successful connection are paced. -/
theorem attempts_paced (D : Deps) (s : Config) (inputs : List Input) (hs : Connected D s)
    (hclock : NonDecreasing inputs) : Paced D s inputs := by
  have hattempts : ∀ before i u v new, (grpc D).Takes s inputs before i u v new →
      Output.attempt ∈ new →
        new = [.attempt] ∧ (AfterBackoff D s before i u ∨ Immediate before i) := by
    rintro before i u v new ⟨after, os₁, hinputs, h₁, hstep⟩ hnew
    rcases attempt_step D u i (v, new) ((moves_iff D u i (v, new)).mp hstep) hnew with
      ⟨honly, ⟨rfl, hsleep⟩ | ⟨clock, hloss, hlast⟩⟩
    · exact ⟨honly, Or.inl (slept_afterBackoff D s u before os₁ hs h₁ hsleep)⟩
    · -- The client compares with the last loss, which is the latest.
      rw [lastDataLoss_run D s u before os₁ hs h₁] at hlast
      rw [hinputs] at hclock
      exact ⟨honly, Or.inr ⟨clock, hloss,
        losses_old before clock (nonDecreasing_left before _ hclock) hlast⟩⟩
  refine ⟨hattempts, ?_, ?_⟩
  · intro before i u v new before' i' u' v' new' clock clock' htakes _ hloss htakes' hnew' hloss'
      hlt
    -- The later one is immediate, and the earlier one is a loss before it.
    have hmem := Machine.takes_mem (grpc D) s u v u' v' inputs before before' i i' new new' htakes
      htakes' hlt
    rcases (hattempts before' i' u' v' new' htakes' hnew').2 with ⟨rfl, _⟩ |
      ⟨clock'', hloss'', hold⟩
    · cases hloss'
    · rw [hloss', Option.some.injEq] at hloss''
      subst hloss''
      exact hold clock (List.mem_filterMap.mpr ⟨i, hmem, hloss⟩)
  · -- An attempt that fails backs off, wherever it was made.
    rintro before i u v new ⟨_, os₁, _, h₁, hstep⟩ hfailed
    exact failed_step D u i (v, new) (coherent_run D s u before os₁ hs h₁)
      ((moves_iff D u i (v, new)).mp hstep) hfailed

/-- A data loss is answered at once, and the attempt fails; after the backoff
    the client is connected again, and a second loss within ten seconds is
    slept over. -/
def lossyRun : List Input :=
  [.nextUpdate 0, .message (.error ⟨.dataLoss, "behind"⟩) ⟨1, 2⟩ 0, .channel (.error "refused") 3,
    .slept, .channel (.ok ()) 4, .response (.ok 1) ⟨5, 6⟩,
    .message (.error ⟨.dataLoss, "behind"⟩) ⟨7, 8⟩ 0, .slept]

theorem lossyRun_paced :
    (∃ t os, (grpc openDeps).run plainStart lossyRun = some (t, os)) ∧
      Paced openDeps plainStart lossyRun :=
  ⟨⟨_, _, rfl⟩, attempts_paced openDeps plainStart lossyRun plainStart_connected (by decide)⟩

end Grpc

end ShredStream
