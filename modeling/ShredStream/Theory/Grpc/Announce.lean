import ShredStream.Theory.Grpc.Attempts

/-!
# Announced Attempts

A backoff announces the attempt it leads to: the notice carries the number of
the attempt and the delay, the sleep begins in the same stretch, and the
attempt follows when the timer fires. So between two attempts that come after
a backoff there is one announcement, and it is the right one.

The attempt that answers a data loss goes by another way. It is made at once,
without a backoff, and nothing is announced; if it succeeds, the stream is
restored without a word of its being lost. The first data loss is never a
recent one, so every run with a data loss makes such an attempt.

## Main definitions

* `Emits`: What a step shows to the outside.
* `since`: What was emitted after the last output of a kind.
* `announcementsOf`, `sleepsOf`: The announcements and the sleeps in it.
* `Announced`: Every attempt of a run is announced, and every restoration.

## Theorems

* `emits_step`: Every step shows one of these things.
* `pending_run`: An announcement stands open exactly while a call sleeps.
* `owed_run`: Without data losses every attempt under way was announced.
* `announced_iff`: The runs whose attempts are all announced.
* `lossyStart_unannounced`: A restoration that was not.
-/

namespace ShredStream

namespace Grpc

open GrpcClient Proto

/-- What a step shows to the outside: it begins a backoff, makes an attempt
    for one of the two reasons, subscribes, is connected again, or leaves the
    call returned or waiting for a message. -/
inductive Emits (u : Config) (i : Input) (v : Config) : List Output → Prop where
  | backsOff (new : List Output) (hu : u.call ≠ some .sleep) (h : BacksOff u v new) :
      Emits u i v new
  | slept (hi : i = .slept) (hu : u.call = some .sleep)
      (hv : v.call = some (.connect .disconnected)) : Emits u i v [.attempt]
  | lost (clock : Clock) (hi : lossOf i = some clock) (stable : Bool)
      (hu : u.call = some (.message stable)) (hv : v.call = some (.connect .dataLoss)) :
      Emits u i v [.attempt]
  | subscribes (site : Site) (reqTx : Sender) (req : SubscribeBinaryTransactionsRequest)
      (hu : u.call = some (.connect site)) (hv : v.call = some (.subscribe site reqTx)) :
      Emits u i v [.subscribe req]
  | connects (site : Site) (reqTx : Sender) (stable : Bool)
      (hu : u.call = some (.subscribe site reqTx)) (hv : v.call = some (.message stable))
      (new : List Output) (hnew : new = [.notice .reconnected] ∨ new = []) : Emits u i v new
  | quiet (hu : u.call = some .sleep → i = .dropCall)
      (hv : v.call = none ∨ ∃ stable, v.call = some (.message stable)) (new : List Output)
      (hnew : ∀ o ∈ new, (∃ item, o = .returned item) ∨ ∃ r, o = .filtersUpdated r) :
      Emits u i v new

def isAttempt : Output → Bool
  | .attempt => true
  | _ => false

def isReconnected : Output → Bool
  | .notice .reconnected => true
  | _ => false

/-- The outputs after the last one of a kind, or all of them. -/
def since (kind : Output → Bool) (os : List Output) : List Output :=
  (os.reverse.takeWhile (fun o => !kind o)).reverse

/-- The attempt numbers and delays announced. -/
def announcementsOf (os : List Output) : List (UInt32 × Duration) :=
  os.filterMap (fun o => match o with
    | .notice (.reconnecting attempt delay) => some (attempt, delay)
    | _ => none)

/-- The delays slept. -/
def sleepsOf (os : List Output) : List Duration :=
  os.filterMap (fun o => match o with
    | .sleep delay => some delay
    | _ => none)

/-- Every attempt of the run was announced once since the attempt before it,
    with the number that the client has reached and the delay it slept; and
    whenever the stream is restored, an attempt was announced since it was
    restored the last time. -/
structure Announced (D : Deps) (s : Config) (inputs : List Input) : Prop where
  attempts : ∀ before i u v new os, (grpc D).Takes s inputs before i u v new →
    (grpc D).run s before = some (u, os) → Output.attempt ∈ new →
      ∃ delay, announcementsOf (since isAttempt os) = [(u.client.attempt, delay)] ∧
        sleepsOf (since isAttempt os) = [delay]
  restored : ∀ before i u v new os, (grpc D).Takes s inputs before i u v new →
    (grpc D).run s before = some (u, os) → Output.notice .reconnected ∈ new →
      announcementsOf (since isReconnected os) ≠ []

/-! ### What was emitted since -/

theorem since_append (kind : Output → Bool) (os new : List Output)
    (h : ∀ o ∈ new, kind o = false) : since kind (os ++ new) = since kind os ++ new := by
  have hnew : ∀ o ∈ new.reverse, (!kind o) = true := by
    intro o ho
    rw [h o (List.mem_reverse.mp ho)]
    rfl
  rw [since, List.reverse_append, List.takeWhile_append_of_pos hnew, List.reverse_append,
    List.reverse_reverse]
  rfl

/-- Nothing was emitted since an output that has just been. -/
theorem since_append_singleton (kind : Output → Bool) (os : List Output) (o : Output)
    (h : kind o = true) : since kind (os ++ [o]) = [] := by
  rw [since, List.reverse_append, List.reverse_singleton, List.singleton_append,
    List.takeWhile_cons_of_neg (by rw [h]; exact Bool.false_ne_true), List.reverse_nil]

@[simp] theorem announcementsOf_append (os new : List Output) :
    announcementsOf (os ++ new) = announcementsOf os ++ announcementsOf new := List.filterMap_append

@[simp] theorem sleepsOf_append (os new : List Output) :
    sleepsOf (os ++ new) = sleepsOf os ++ sleepsOf new := List.filterMap_append

/-- Answers to calls are neither announcements nor sleeps. -/
theorem nothing_of_quiet (new : List Output)
    (h : ∀ o ∈ new, (∃ item, o = .returned item) ∨ ∃ r, o = .filtersUpdated r) :
    announcementsOf new = [] ∧ sleepsOf new = [] ∧ (∀ o ∈ new, isAttempt o = false) ∧
      ∀ o ∈ new, isReconnected o = false := by
  refine ⟨List.filterMap_eq_nil_iff.mpr ?_, List.filterMap_eq_nil_iff.mpr ?_, ?_, ?_⟩ <;>
  · intro o ho
    rcases h o ho with ⟨item, rfl⟩ | ⟨r, rfl⟩ <;> rfl

/-! ### One step -/

/-- The top of the loop backs off, returns, or waits for a message. -/
theorem emits_enter (u : Config) (i : Input) (c : GrpcClient) (now : Instant)
    (hu : u.call ≠ some .sleep) (hattempt : c.attempt = u.client.attempt)
    (hreconnect : c.reconnect = u.client.reconnect) (hjitter : c.jitter = u.client.jitter) :
    Emits u i (settle (c.enter now)).1 (settle (c.enter now)).2 := by
  have hquiet : u.call = some .sleep → i = .dropCall := fun h => absurd h hu
  cases hs : c.state with
  | disconnected =>
      exact Emits.backsOff _ hu (enter_backsOff u c now hs hattempt hreconnect hjitter)
  | finished =>
      rw [enter_finished c now hs]
      refine Emits.quiet hquiet (Or.inl rfl) _ (fun o ho => ?_)
      exact Or.inl ⟨none, List.mem_singleton.mp ho⟩
  | terminal e =>
      rw [enter_terminal c now e hs]
      refine Emits.quiet hquiet (Or.inl rfl) _ (fun o ho => ?_)
      exact Or.inl ⟨some (.error e), List.mem_singleton.mp ho⟩
  | connected stream reqTx since =>
      rw [enter_connected c now stream reqTx since hs]
      exact Emits.quiet hquiet (Or.inr ⟨_, rfl⟩) _ (fun o ho => absurd ho List.not_mem_nil)

/-- A message returns, backs off, or is answered by an attempt. -/
theorem emits_message (c : GrpcClient) (stable : Bool)
    (r : Except Status (Option SubscribeBinaryTransactionsResponse)) (clock : Clock)
    (receivedAt : SystemTime) (hu : Coherent ⟨c, some (.message stable)⟩) :
    Emits ⟨c, some (.message stable)⟩ (.message r clock receivedAt)
      (settle (c.onMessage stable r clock receivedAt)).1
      (settle (c.onMessage stable r clock receivedAt)).2 := by
  have hawake : some (Await.message stable) ≠ some .sleep := by
    intro h
    cases h
  have hheard := heard_onMessage c stable r clock receivedAt
  generalize settle (c.onMessage stable r clock receivedAt) = q at hheard ⊢
  cases hheard with
  | terminal | recoverable | ended | recent => exact emits_enter _ _ _ _ hawake rfl rfl rfl
  | immediate status hc => exact Emits.lost clock (by rw [lossOf, if_pos hc]) stable rfl rfl
  | skipped response stats =>
      -- The connection stays, so the loop waits for the next message.
      rcases hu with ⟨stream, reqTx, since, hstate⟩
      rw [enter_connected { c with attempt := if stable then 0 else c.attempt, stats } clock.first
        stream reqTx since hstate]
      exact Emits.quiet (fun h => absurd h hawake) (Or.inr ⟨_, rfl⟩) _
        (fun o ho => absurd ho List.not_mem_nil)
  | returned response stats update =>
      refine Emits.quiet (fun h => absurd h hawake) (Or.inl rfl) _ (fun o ho => ?_)
      exact Or.inl ⟨some (.ok update), List.mem_singleton.mp ho⟩

/-- Every step shows one of these things. -/
theorem emits_step (D : Deps) (u : Config) (i : Input) (r : Config × List Output)
    (hu : Coherent u) (hm : Moves D u i r) : Emits u i r.1 r.2 := by
  cases hm with
  | nextUpdate c now => exact emits_enter ⟨c, none⟩ _ c now (fun h => by cases h) rfl rfl rfl
  | updateFilters c filters sent =>
      refine Emits.quiet (fun h => by cases h) (Or.inl rfl) _ (fun o ho => Or.inr ?_)
      rcases updateFilters_cases D c filters sent with ⟨e, _, heq⟩ |
        ⟨_, stream, reqTx, since, _, heq⟩ | ⟨_, _, heq⟩
      · rw [heq] at ho
        exact ⟨_, List.mem_singleton.mp ho⟩
      · rw [heq] at ho
        simp only at ho
        split at ho
        · exact absurd ho List.not_mem_nil
        · exact ⟨_, List.mem_singleton.mp ho⟩
      · rw [heq] at ho
        exact ⟨_, List.mem_singleton.mp ho⟩
  | close c =>
      exact Emits.quiet (fun h => by cases h) (Or.inl rfl) _
        (fun o ho => absurd ho List.not_mem_nil)
  | slept c => exact Emits.slept rfl rfl rfl
  | channel c site r now =>
      cases r with
      | ok u => exact Emits.subscribes site c.freshSender _ rfl rfl
      | error e =>
          refine Emits.backsOff _ (fun h => by cases h) ?_
          exact failed_step D _ _ _ hu (Moves.channel c site (.error e) now) trivial
  | response c site reqTx r clock =>
      cases r with
      | error status =>
          refine Emits.backsOff _ (fun h => by cases h) ?_
          exact failed_step D _ _ _ hu (Moves.response c site reqTx (.error status) clock) trivial
      | ok stream =>
          rw [onResponse_ok, enter_connected _ clock.second stream reqTx clock.first rfl,
            List.append_nil, subscribed]
          refine Emits.connects site reqTx _ rfl rfl _ ?_
          cases c.everConnected with
          | true => exact Or.inl rfl
          | false => exact Or.inr rfl
  | message c stable r clock receivedAt => exact emits_message c stable r clock receivedAt hu
  | dropCall c await =>
      exact Emits.quiet (fun _ => rfl) (Or.inl rfl) _ (fun o ho => absurd ho List.not_mem_nil)

/-! ### Over a run -/

/-- What stands between the attempt before and the next one. -/
def Pending (u : Config) (os : List Output) : Prop :=
  (u.call = some .sleep → ∃ delay,
    announcementsOf (since isAttempt os) = [(u.client.attempt, delay)] ∧
      sleepsOf (since isAttempt os) = [delay]) ∧
  (u.call ≠ some .sleep →
    announcementsOf (since isAttempt os) = [] ∧ sleepsOf (since isAttempt os) = [])

theorem pending_step (u v : Config) (i : Input) (os new : List Output) (hi : i ≠ .dropCall)
    (hu : Pending u os) (h : Emits u i v new) : Pending v (os ++ new) := by
  -- A step that leaves the call awake and shows neither kind of output.
  have hawake : ∀ (new : List Output), u.call ≠ some .sleep → v.call ≠ some .sleep →
      (∀ o ∈ new, isAttempt o = false) → announcementsOf new = [] → sleepsOf new = [] →
        Pending v (os ++ new) := by
    intro new hucall hvcall hattempt hnone hslept
    rcases hu.2 hucall with ⟨hannounced, hsleeps⟩
    refine ⟨fun hcall => absurd hcall hvcall, fun _ => ?_⟩
    rw [since_append isAttempt os new hattempt, announcementsOf_append, sleepsOf_append, hannounced,
      hsleeps, hnone, hslept]
    exact ⟨rfl, rfl⟩
  -- An attempt has just been made, so nothing was announced since.
  have hattempted : v.call ≠ some .sleep → Pending v (os ++ [.attempt]) := by
    intro hvcall
    refine ⟨fun hcall => absurd hcall hvcall, fun _ => ?_⟩
    rw [since_append_singleton isAttempt os .attempt rfl]
    exact ⟨rfl, rfl⟩
  cases h with
  | backsOff _ hucall hb =>
      rcases hb with ⟨hvcall, _, delay, _, rfl⟩
      rcases hu.2 hucall with ⟨hannounced, hsleeps⟩
      refine ⟨fun _ => ⟨delay, ?_⟩, fun hcall => absurd hvcall hcall⟩
      rw [since_append isAttempt os _ (by simp [isAttempt]), announcementsOf_append,
        sleepsOf_append,
        hannounced, hsleeps]
      exact ⟨rfl, rfl⟩
  | slept _ _ hv => exact hattempted (fun hcall => by rw [hv] at hcall; cases hcall)
  | lost clock _ stable _ hv => exact hattempted (fun hcall => by rw [hv] at hcall; cases hcall)
  | subscribes site reqTx req hucall hv =>
      refine hawake _ ?_ ?_ (by simp [isAttempt]) rfl rfl
      · rw [hucall]
        exact fun hcall => by cases hcall
      · rw [hv]
        exact fun hcall => by cases hcall
  | connects site reqTx stable hucall hv _ hnew =>
      refine hawake _ ?_ ?_ ?_ ?_ ?_
      · rw [hucall]
        exact fun hcall => by cases hcall
      · rw [hv]
        exact fun hcall => by cases hcall
      all_goals rcases hnew with rfl | rfl <;> simp [isAttempt, announcementsOf, sleepsOf]
  | quiet hucall hv _ hnew =>
      rcases nothing_of_quiet new hnew with ⟨hnone, hslept, hattempt, _⟩
      refine hawake new (fun hcall => hi (hucall hcall)) (fun hcall => ?_) hattempt hnone hslept
      rcases hv with hv | ⟨stable, hv⟩ <;>
      · rw [hv] at hcall
        cases hcall

/-- In a run without dropped calls an announcement stands open exactly while a
    call sleeps. -/
theorem pending_run (D : Deps) (s t : Config) (inputs : List Input) (os : List Output)
    (hs : Connected D s) (hcomplete : Input.dropCall ∉ inputs)
    (h : (grpc D).run s inputs = some (t, os)) : Pending t os := by
  refine (run_moves D
    (fun before u os => Input.dropCall ∉ before → Coherent u ∧ Pending u os) ?_ s t inputs os ?_ h
    hcomplete).2
  · intro before u os i r hu hm hcomplete
    simp only [List.mem_append, List.mem_singleton, not_or] at hcomplete
    rcases hu hcomplete.1 with ⟨hcoherent, hpending⟩
    exact ⟨coherent_step D u i r hcoherent hm,
      pending_step u r.1 i os r.2 (Ne.symm hcomplete.2) hpending (emits_step D u i r hcoherent hm)⟩
  · intro _
    have hcall := (connected_client D s hs).2.2.1
    refine ⟨coherent_run D s s [] [] hs rfl, fun hsleep => ?_, fun _ => ⟨rfl, rfl⟩⟩
    rw [hcall] at hsleep
    cases hsleep

/-- The call is on its way to a new connection. -/
def Restoring (u : Config) : Prop :=
  match u.call with
  | some .sleep | some (.connect _) | some (.subscribe _ _) => True
  | _ => False

/-- A client on its way to a new connection has said so. -/
def Owed (u : Config) (os : List Output) : Prop :=
  Restoring u → announcementsOf (since isReconnected os) ≠ []

theorem owed_step (u v : Config) (i : Input) (os new : List Output) (hloss : lossOf i = none)
    (hu : Owed u os) (h : Emits u i v new) : Owed v (os ++ new) := by
  -- What is said stays said while the call is on its way.
  have hstays : ∀ new : List Output, Restoring u → (∀ o ∈ new, isReconnected o = false) →
      Owed v (os ++ new) := by
    intro new hrestoring hnew _
    rw [since_append isReconnected os new hnew, announcementsOf_append]
    exact fun hnil => hu hrestoring (List.append_eq_nil_iff.mp hnil).1
  cases h with
  | backsOff _ _ hb =>
      rcases hb with ⟨_, _, delay, _, rfl⟩
      intro _
      rw [since_append isReconnected os _ (by simp [isReconnected]), announcementsOf_append]
      exact fun hnil => List.cons_ne_nil _ _ (List.append_eq_nil_iff.mp hnil).2
  | slept _ hucall _ =>
      refine hstays _ ?_ (by simp [isReconnected])
      rw [Restoring, hucall]
      trivial
  | lost clock hi _ _ _ =>
      rw [hloss] at hi
      cases hi
  | subscribes site reqTx req hucall _ =>
      refine hstays _ ?_ (by simp [isReconnected])
      rw [Restoring, hucall]
      trivial
  | connects site reqTx stable _ hv _ _ =>
      intro hrestoring
      rw [Restoring, hv] at hrestoring
      exact hrestoring.elim
  | quiet _ hv _ _ =>
      intro hrestoring
      rcases hv with hv | ⟨stable, hv⟩ <;>
      · rw [Restoring, hv] at hrestoring
        exact hrestoring.elim

/-- Without data losses, a client on its way to a new connection has said so
    since the stream was restored the last time. -/
theorem owed_run (D : Deps) (s t : Config) (inputs : List Input) (os : List Output)
    (hs : Connected D s) (hloss : lossesOf inputs = [])
    (h : (grpc D).run s inputs = some (t, os)) : Owed t os := by
  refine (run_moves D (fun before u os => lossesOf before = [] → Coherent u ∧ Owed u os) ?_ s t
    inputs os ?_ h hloss).2
  · intro before u os i r hu hm hloss
    rw [lossesOf_append, lossesOf_singleton, List.append_eq_nil_iff] at hloss
    rcases hu hloss.1 with ⟨hcoherent, howed⟩
    exact ⟨coherent_step D u i r hcoherent hm, owed_step u r.1 i os r.2
      (Option.toList_eq_nil_iff.mp hloss.2) howed (emits_step D u i r hcoherent hm)⟩
  · intro _
    have hcall := (connected_client D s hs).2.2.1
    refine ⟨coherent_run D s s [] [] hs rfl, fun hrestoring => ?_⟩
    rw [Restoring, hcall] at hrestoring
    exact hrestoring.elim

/-- The first data loss is answered at once, by a call that is awake. -/
theorem first_loss (D : Deps) (u : Config) (i : Input) (r : Config × List Output) (clock : Clock)
    (hm : Moves D u i r) (hloss : lossOf i = some clock) (hlast : u.client.lastDataLoss = none) :
    u.call ≠ some .sleep ∧ r.2 = [.attempt] := by
  cases hm with
  | message c stable r clock receivedAt =>
      rcases r with status | response
      · by_cases hc : classify status = .dataLoss
        · simp only at hlast
          simp only [onMessage, hc, hlast, Option.any_none, Bool.false_eq_true, if_false]
          refine ⟨fun hcall => ?_, rfl⟩
          cases hcall
        · rw [lossOf, if_neg hc] at hloss
          cases hloss
      · cases hloss
  | nextUpdate | updateFilters | close | slept | channel | response | dropCall => cases hloss

/-- An attempt that answers no data loss is made by a call that has slept. -/
theorem attempt_slept (u v : Config) (i : Input) (new : List Output) (h : Emits u i v new)
    (hloss : lossOf i = none) (hmem : Output.attempt ∈ new) : u.call = some .sleep := by
  cases h with
  | slept _ hucall _ => exact hucall
  | lost clock hlost _ _ _ =>
      rw [hloss] at hlost
      cases hlost
  | backsOff _ _ hb =>
      rcases hb with ⟨_, _, delay, _, rfl⟩
      simp at hmem
  | subscribes => simp at hmem
  | connects _ _ _ _ _ _ hnew => rcases hnew with rfl | rfl <;> simp at hmem
  | quiet _ _ _ hnew => rcases hnew _ hmem with ⟨item, h⟩ | ⟨r, h⟩ <;> cases h

/-- The stream is restored by a call that was on its way to a connection. -/
theorem reconnected_restoring (u v : Config) (i : Input) (new : List Output) (h : Emits u i v new)
    (hmem : Output.notice .reconnected ∈ new) : Restoring u := by
  cases h with
  | connects site reqTx stable hucall _ _ _ =>
      rw [Restoring, hucall]
      trivial
  | backsOff _ _ hb =>
      rcases hb with ⟨_, _, delay, _, rfl⟩
      simp at hmem
  | slept | lost | subscribes => simp at hmem
  | quiet _ _ _ hnew => rcases hnew _ hmem with ⟨item, h⟩ | ⟨r, h⟩ <;> cases h

/-- The attempts and the restorations of a run are all announced exactly when
    no data loss is received in it. -/
theorem announced_iff (D : Deps) (s t : Config) (inputs : List Input) (os : List Output)
    (hs : Connected D s) (hcomplete : Input.dropCall ∉ inputs)
    (hrun : (grpc D).run s inputs = some (t, os)) :
    Announced D s inputs ↔ lossesOf inputs = [] := by
  constructor
  · -- The first data loss makes an attempt with no announcement open.
    intro h
    rcases hlosses : lossesOf inputs with _ | ⟨clock, rest⟩
    · rfl
    · exfalso
      rcases List.filterMap_eq_cons_iff.mp hlosses with ⟨before, i, after, rfl, hnone, hloss, _⟩
      rcases Machine.run_split (grpc D) s t before after i os hrun with
        ⟨u, v, os₁, new, _, hbefore, hstep, _, _⟩
      have hlast := lastDataLoss_run D s u before os₁ hs hbefore
      rw [show lossesOf before = [] from List.filterMap_eq_nil_iff.mpr hnone] at hlast
      rcases first_loss D u i (v, new) clock ((moves_iff D u i (v, new)).mp hstep) hloss hlast with
        ⟨hawake, hnew⟩
      have hmem : Output.attempt ∈ new := by
        rw [show new = [.attempt] from hnew]
        exact List.mem_singleton_self _
      rcases h.attempts before i u v new os₁ ⟨after, os₁, rfl, hbefore, hstep⟩ hbefore hmem with
        ⟨delay, hannounced, _⟩
      have hpending := pending_run D s u before os₁ hs
        (fun hmem => hcomplete (List.mem_append_left _ hmem)) hbefore
      rw [(hpending.2 hawake).1] at hannounced
      cases hannounced
  · intro hnone
    have hemits : ∀ before i u v new os, (grpc D).Takes s inputs before i u v new →
        (grpc D).run s before = some (u, os) → Emits u i v new := by
      rintro before i u v new os ⟨_, _, _, _, hstep⟩ hbefore
      exact emits_step D u i (v, new) (coherent_run D s u before os hs hbefore)
        ((moves_iff D u i (v, new)).mp hstep)
    constructor
    · intro before i u v new os htakes hbefore hmem
      have hemit := hemits before i u v new os htakes hbefore
      rcases htakes with ⟨after, _, rfl, _, _⟩
      have hloss := List.filterMap_eq_nil_iff.mp hnone i
        (List.mem_append_right before List.mem_cons_self)
      have hpending := pending_run D s u before os hs
        (fun hmem => hcomplete (List.mem_append_left _ hmem)) hbefore
      exact hpending.1 (attempt_slept u v i new hemit hloss hmem)
    · intro before i u v new os htakes hbefore hmem
      have hemit := hemits before i u v new os htakes hbefore
      rcases htakes with ⟨after, _, rfl, _, _⟩
      rw [lossesOf_append, List.append_eq_nil_iff] at hnone
      exact owed_run D s u before os hs hnone.1 hbefore (reconnected_restoring u v i new hemit hmem)

/-- The stream reports a data loss, and the attempt that answers it succeeds. -/
def restoringRun : List Input :=
  [.nextUpdate 0, .message (.error ⟨.dataLoss, "behind"⟩) ⟨1, 2⟩ 0, .channel (.ok ()) 3,
    .response (.ok 1) ⟨4, 5⟩]

/-- The attempt is made and the stream restored, and only the restoration is
    said. -/
theorem lossyStart_unannounced : Input.dropCall ∉ restoringRun ∧
    (∃ t, (grpc openDeps).run plainStart restoringRun
      = some (t,
        [.attempt, .subscribe (filtersToProto plainConfig.filters), .notice .reconnected])) ∧
    ¬ Announced openDeps plainStart restoringRun := by
  refine ⟨by simp [restoringRun], ⟨_, rfl⟩, fun h => ?_⟩
  have hattempt := h.attempts [.nextUpdate 0] (.message (.error ⟨.dataLoss, "behind"⟩) ⟨1, 2⟩ 0)
    ⟨plainStart.client, some (.message false)⟩ _ [.attempt] [] ⟨_, [], rfl, rfl, rfl⟩ rfl
    (List.mem_singleton_self _)
  rcases hattempt with ⟨delay, hannounced, _⟩
  cases hannounced

/-- The delays this client makes of the first two numbers it draws: of the first
    one for the first attempt, and of the second for either attempt. -/
theorem plain_delays :
    Duration.fromSecsF64 (backoffBound {} 1 * (Jitter.new none).next.2) = 85979412 ∧
    Duration.fromSecsF64 (backoffBound {} 1 * (Jitter.new none).next.1.next.2) = 39430134 ∧
    Duration.fromSecsF64 (backoffBound {} 2 * (Jitter.new none).next.1.next.2) = 78860268 := by
  decide +kernel

/-- The stream ends, and the attempt after the backoff succeeds. -/
def endedRun : List Input :=
  [.nextUpdate 0, .message (.ok none) ⟨1, 2⟩ 0, .slept, .channel (.ok ()) 3,
    .response (.ok 1) ⟨4, 5⟩]

/-- One attempt, announced with its delay, and then the notice that it was
    successful. -/
theorem endedRun_announced : Announced openDeps plainStart endedRun ∧
    ∃ t os, (grpc openDeps).run plainStart endedRun = some (t, os) ∧
      announcementsOf os = [(1, 85979412)] ∧ sleepsOf os = [85979412] ∧
      os.countP isAttempt = 1 ∧ os.countP isReconnected = 1 := by
  have hrun : ∃ t os, (grpc openDeps).run plainStart endedRun = some (t, os) ∧
      announcementsOf os
        = [(1, Duration.fromSecsF64 (backoffBound {} 1 * (Jitter.new none).next.2))] ∧
      sleepsOf os = [Duration.fromSecsF64 (backoffBound {} 1 * (Jitter.new none).next.2)] ∧
      os.countP isAttempt = 1 ∧ os.countP isReconnected = 1 := ⟨_, _, rfl, rfl, rfl, rfl, rfl⟩
  rw [plain_delays.1] at hrun
  rcases hrun with ⟨t, os, hrun, hvalues⟩
  exact ⟨(announced_iff openDeps plainStart t endedRun os plainStart_connected (by simp [endedRun])
    hrun).mpr rfl, t, os, hrun, hvalues⟩

end Grpc

end ShredStream
