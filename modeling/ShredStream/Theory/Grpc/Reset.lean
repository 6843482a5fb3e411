import ShredStream.Theory.Grpc.Announce
import ShredStream.Theory.Grpc.Backoff
import ShredStream.Theory.Grpc.Jitter

/-!
# Restarting the Delays

The number of attempts is meant to fall back to zero once a connection has
been delivering data for long enough. It falls back when a response is taken
by a call that was stable, and a call decides whether it is when it reaches
the stream, before it waits. A response that comes after the threshold to a
call that began to wait before it leaves the number as it was.

So the delays restart after a late response exactly when the number was at
zero already, or some response up to the next backoff was waited for since a
moment past the threshold. The other half of the promise always holds: only a
late response takes the number back.

## Main definitions

* `LateResponse`: A response on a connection that is old enough.
* `PromptResponse`: One that was waited for since the connection was.
* `Episode`: From a late response to the next backoff.
* `Restarts`: What is promised about the delays of a run.
* `Prompt`: When it is kept.

## Theorems

* `counter_step`: What a step does with the number of attempts.
* `waiting_run`: What a call that waits has decided.
* `counter_zero_iff`: How the number comes to be zero without a backoff.
* `restarts_iff`: The runs whose delays restart.
* `lateRun_continues`: A run whose delays do not.
* `promptRun_restarts`: A run whose delays do.
-/

namespace ShredStream

namespace Grpc

open GrpcClient Proto

/-- The connection is old enough at this reading of the clock. -/
def Aged (u : Config) (now : Instant) : Prop :=
  ∃ stream reqTx since, u.client.state = .connected stream reqTx since ∧
    u.client.reconnect.resetAfter ≤ since.elapsed now

/-- The clock when a response is received. -/
def responseOf : Input → Option Clock
  | .message (.ok (some _)) clock _ => some clock
  | _ => none

/-- The reading of the clock when the call goes back to the top of the loop. -/
def enteredAt : Input → Instant
  | .nextUpdate now => now
  | .response _ clock => clock.second
  | .message _ clock _ => clock.first
  | _ => 0

/-- Since when the call that is in progress has been waiting. -/
def waitedFrom (before : List Input) : Instant := (before.getLast?.map enteredAt).getD 0

/-- A response is received while the connection is old enough. -/
def LateResponse (u : Config) (i : Input) : Prop :=
  ∃ clock, responseOf i = some clock ∧ Aged u clock.first

/-- A response is received that the call waited for only since the connection
    was old enough. -/
def PromptResponse (before : List Input) (u : Config) (i : Input) : Prop :=
  ∃ clock, responseOf i = some clock ∧ Aged u (waitedFrom before)

/-- A stretch of a run that begins with a late response and ends where the
    next backoff begins. -/
structure Episode (D : Deps) (s : Config) (inputs before stretch : List Input) (u w v : Config)
    (new : List Output) : Prop where
  late : ∃ i rest, stretch = i :: rest ∧ LateResponse u i
  starts : ∃ os, (grpc D).run s before = some (u, os)
  lasts : ∃ os, (grpc D).run u stretch = some (w, os) ∧ announcementsOf os = []
  ends : ∃ i after, inputs = before ++ stretch ++ i :: after ∧ (grpc D).step w i = some (v, new)
  backsOff : BacksOff w v new

/-- The backoff after a late response is numbered one and drawn below the
    initial delay, and nothing but a late response takes the number back. -/
structure Restarts (D : Deps) (s : Config) (inputs : List Input) : Prop where
  first : ∀ before stretch u w v new, Episode D s inputs before stretch u w v new →
    v.client.attempt = 1 ∧ ∃ draw : ℚ, 0 ≤ draw ∧ draw < 1 ∧
      new = [.notice (.reconnecting 1 (Duration.fromSecsF64
          (min w.client.reconnect.initial.asSecs w.client.reconnect.max.asSecs * draw))),
        .sleep (Duration.fromSecsF64
          (min w.client.reconnect.initial.asSecs w.client.reconnect.max.asSecs * draw))]
  only : ∀ before i u v new, (grpc D).Takes s inputs before i u v new →
    v.client.attempt = u.client.attempt ∨ BacksOff u v new ∨ LateResponse u i

/-- From every late response to the next backoff, the number was at zero when
    it came, or some response was waited for only since the connection was old
    enough. -/
def Prompt (D : Deps) (s : Config) (inputs : List Input) : Prop :=
  ∀ before stretch u w v new, Episode D s inputs before stretch u w v new →
    u.client.attempt = 0 ∨ ∃ earlier i a b shown,
      (grpc D).Takes u stretch earlier i a b shown ∧ PromptResponse (before ++ earlier) a i

/-! ### The number of attempts -/

/-- A response is taken by a call that was stable. -/
def Resets (u : Config) (i : Input) : Prop :=
  u.call = some (.message true) ∧ ∃ clock, responseOf i = some clock

/-- The top of the loop counts an attempt only when it backs off. -/
theorem enter_counter (u : Config) (c : GrpcClient) (now : Instant)
    (hattempt : c.attempt = u.client.attempt) (hreconnect : c.reconnect = u.client.reconnect)
    (hjitter : c.jitter = u.client.jitter) :
    BacksOff u (settle (c.enter now)).1 (settle (c.enter now)).2 ∨
      (settle (c.enter now)).1.client.attempt = u.client.attempt := by
  cases hs : c.state with
  | disconnected => exact Or.inl (enter_backsOff u c now hs hattempt hreconnect hjitter)
  | finished =>
      rw [enter_finished c now hs]
      exact Or.inr hattempt
  | terminal e =>
      rw [enter_terminal c now e hs]
      exact Or.inr hattempt
  | connected stream reqTx since =>
      rw [enter_connected c now stream reqTx since hs]
      exact Or.inr hattempt

/-- What does not count an attempt takes the number back or leaves it, and it
    takes it back for a response to a call that was stable. -/
def Settled (u : Config) (i : Input) (v : Config) : Prop :=
  (Resets u i ∧ v.client.attempt = 0) ∨ (¬ Resets u i ∧ v.client.attempt = u.client.attempt)

theorem settled_of_kept (u v : Config) (i : Input) (hi : responseOf i = none)
    (h : v.client.attempt = u.client.attempt) : Settled u i v := by
  refine Or.inr ⟨?_, h⟩
  rintro ⟨_, clock, hclock⟩
  rw [hi] at hclock
  cases hclock

theorem settled_of_response (c : GrpcClient) (stable : Bool) (clock : Clock)
    (receivedAt : SystemTime) (response : SubscribeBinaryTransactionsResponse) (v : Config)
    (h : v.client.attempt = if stable then 0 else c.attempt) : Settled ⟨c, some (.message stable)⟩
      (.message (.ok (some response)) clock receivedAt) v := by
  cases stable with
  | true => exact Or.inl ⟨⟨rfl, clock, rfl⟩, h⟩
  | false =>
      refine Or.inr ⟨?_, h⟩
      rintro ⟨hcall, _⟩
      cases hcall

/-- A message that costs the connection leaves the number to the backoff, and
    a response is one of a call that was stable or not. -/
theorem counter_message (c : GrpcClient) (stable : Bool)
    (r : Except Status (Option SubscribeBinaryTransactionsResponse)) (clock : Clock)
    (receivedAt : SystemTime) (hu : Coherent ⟨c, some (.message stable)⟩) :
    BacksOff ⟨c, some (.message stable)⟩ (settle (c.onMessage stable r clock receivedAt)).1
        (settle (c.onMessage stable r clock receivedAt)).2 ∨
      Settled ⟨c, some (.message stable)⟩ (.message r clock receivedAt)
        (settle (c.onMessage stable r clock receivedAt)).1 := by
  have hheard := heard_onMessage c stable r clock receivedAt
  generalize settle (c.onMessage stable r clock receivedAt) = q at hheard ⊢
  cases hheard with
  | terminal | recoverable | ended | recent =>
      exact Or.imp_right (settled_of_kept _ _ _ rfl) (enter_counter _ _ _ rfl rfl rfl)
  | immediate => exact Or.inr (settled_of_kept _ _ _ rfl rfl)
  | skipped response stats =>
      -- The connection stays, so the loop does not back off.
      rcases hu with ⟨stream, reqTx, since, hstate⟩
      refine Or.inr (settled_of_response c stable clock receivedAt response _ ?_)
      rw [enter_connected { c with attempt := if stable then 0 else c.attempt, stats } clock.first
        stream reqTx since hstate]
  | returned response =>
      exact Or.inr (settled_of_response c stable clock receivedAt response _ rfl)

/-- A step counts an attempt by backing off, takes the number back to zero, or
    leaves it. -/
theorem counter_step (D : Deps) (u : Config) (i : Input) (r : Config × List Output)
    (hu : Coherent u) (hm : Moves D u i r) : BacksOff u r.1 r.2 ∨ Settled u i r.1 := by
  cases hm with
  | nextUpdate c now =>
      exact Or.imp_right (settled_of_kept _ _ _ rfl) (enter_counter ⟨c, none⟩ c now rfl rfl rfl)
  | updateFilters c filters sent =>
      refine Or.inr (settled_of_kept _ _ _ rfl ?_)
      rcases updateFilters_cases D c filters sent with ⟨e, _, heq⟩ |
        ⟨_, stream, reqTx, since, _, heq⟩ | ⟨_, _, heq⟩ <;>
      · rw [heq]
  | channel c site r now =>
      cases r with
      | ok u => exact Or.inr (settled_of_kept _ _ _ rfl rfl)
      | error e =>
          exact Or.inl (failed_step D _ _ _ hu (Moves.channel c site (.error e) now) trivial)
  | response c site reqTx r clock =>
      cases r with
      | error status =>
          exact Or.inl (failed_step D _ _ _ hu (Moves.response c site reqTx (.error status) clock)
            trivial)
      | ok stream =>
          refine Or.inr (settled_of_kept _ _ _ rfl ?_)
          rw [onResponse_ok, enter_connected _ clock.second stream reqTx clock.first rfl]
          rfl
  | message c stable r clock receivedAt => exact counter_message c stable r clock receivedAt hu
  | close | slept | dropCall => exact Or.inr (settled_of_kept _ _ _ rfl rfl)

/-- A step of a backoff announces it. -/
theorem announced_of_backsOff (u v : Config) (new : List Output) (h : BacksOff u v new) :
    announcementsOf new ≠ [] := by
  rcases h with ⟨_, _, delay, _, rfl⟩
  exact List.cons_ne_nil _ _

/-- Without a backoff the number is at zero when it was before, or when a
    response was taken by a call that was stable. -/
theorem counter_zero_iff (D : Deps) (stretch : List Input) : ∀ (u w : Config) (os : List Output),
    Coherent u → (grpc D).run u stretch = some (w, os) → announcementsOf os = [] →
      (w.client.attempt = 0 ↔ u.client.attempt = 0 ∨ ∃ earlier i a b shown,
        (grpc D).Takes u stretch earlier i a b shown ∧ Resets a i) := by
  induction stretch with
  | nil =>
      intro u w os _ h _
      rw [Machine.run_nil, Option.some.injEq, Prod.mk.injEq] at h
      rw [← h.1]
      refine ⟨Or.inl, fun hzero => hzero.resolve_right ?_⟩
      rintro ⟨earlier, i, a, b, shown, ⟨after, _, hinputs, _, _⟩, _⟩
      exact absurd hinputs.symm
        (List.append_ne_nil_of_right_ne_nil earlier (List.cons_ne_nil i after))
  | cons i stretch ih =>
      intro u w os hu h hquiet
      rcases Machine.run_cons (grpc D) u w i stretch os h with ⟨v, new, os', hstep, hrest, rfl⟩
      rw [announcementsOf_append, List.append_eq_nil_iff] at hquiet
      have hm := (moves_iff D u i (v, new)).mp hstep
      have hrestIff := ih v w os' (coherent_step D u i (v, new) hu hm) hrest hquiet.2
      -- A reset in what follows is one of the whole stretch.
      have hlater : ∀ earlier j a b shown, (grpc D).Takes v stretch earlier j a b shown →
          (grpc D).Takes u (i :: stretch) (i :: earlier) j a b shown := by
        intro earlier j a b shown htakes
        exact (Machine.takes_cons_iff (grpc D) u v a b i j stretch _ new shown hstep).mpr
          (Or.inr ⟨earlier, rfl, htakes⟩)
      rw [hrestIff]
      rcases counter_step D u i (v, new) hu hm with hb | ⟨hreset, hzero⟩ | ⟨hno, hkept⟩
      · exact absurd hquiet.1 (announced_of_backsOff u v new hb)
      · refine iff_of_true (Or.inl hzero) (Or.inr ⟨[], i, u, v, new, ?_, hreset⟩)
        exact (Machine.takes_cons_iff (grpc D) u v u v i i stretch [] new new hstep).mpr
          (Or.inl ⟨rfl, rfl, rfl, rfl, rfl⟩)
      · simp only at hkept
        rw [hkept]
        refine or_congr_right ⟨?_, ?_⟩
        · rintro ⟨earlier, j, a, b, shown, htakes, hreset⟩
          exact ⟨i :: earlier, j, a, b, shown, hlater earlier j a b shown htakes, hreset⟩
        · rintro ⟨earlier, j, a, b, shown, htakes, hreset⟩
          rcases (Machine.takes_cons_iff (grpc D) u v a b i j stretch earlier new shown hstep).mp
            htakes with ⟨_, rfl, rfl, _, _⟩ | ⟨earlier', _, htakes'⟩
          · exact absurd hreset hno
          · exact ⟨earlier', j, a, b, shown, htakes', hreset⟩

/-! ### Since when a call waits -/

/-- A call that waits from the top of the loop has looked at the age there. -/
theorem enter_waits (c : GrpcClient) (now : Instant) (stable : Bool)
    (h : (settle (c.enter now)).1.call = some (.message stable)) :
    stable = true ↔ Aged (settle (c.enter now)).1 now := by
  have hentered := entered_enter c now
  generalize settle (c.enter now) = q at hentered h ⊢
  cases hentered with
  | finished | terminal | disconnected => cases h
  | connected stream reqTx since hs =>
      cases h
      rw [decide_eq_true_eq]
      refine ⟨fun hage => ⟨stream, reqTx, since, hs, hage⟩, ?_⟩
      rintro ⟨stream', reqTx', since', hs', hage⟩
      rw [hs] at hs'
      cases hs'
      exact hage

/-- A call that waits after a step has looked at the age in it. -/
theorem waiting_step (D : Deps) (u : Config) (i : Input) (r : Config × List Output)
    (hu : Coherent u) (hm : Moves D u i r) (stable : Bool)
    (h : r.1.call = some (.message stable)) : stable = true ↔ Aged r.1 (enteredAt i) := by
  have hfailed : Failed i → (stable = true ↔ Aged r.1 (enteredAt i)) := by
    intro hi
    rw [(failed_step D u i r hu hm hi).1] at h
    cases h
  cases hm with
  | nextUpdate c now => exact enter_waits c now stable h
  | channel c site r now =>
      cases r with
      | ok u => cases h
      | error e => exact hfailed trivial
  | response c site reqTx r clock =>
      cases r with
      | error status => exact hfailed trivial
      | ok stream =>
          rw [onResponse_ok] at h ⊢
          exact enter_waits _ clock.second stable h
  | message c old r clock receivedAt =>
      have hheard := heard_onMessage c old r clock receivedAt
      generalize settle (c.onMessage old r clock receivedAt) = q at hheard h ⊢
      cases hheard with
      | terminal | recoverable | ended | skipped => exact enter_waits _ clock.first stable h
      | recent =>
          rw [enter_disconnected _ clock.second rfl] at h
          cases h
      | immediate | returned => cases h
  | updateFilters | close | slept | dropCall => cases h

/-- What a call that waits has decided, it has decided when it began to
    wait. -/
theorem waiting_run (D : Deps) (s u : Config) (before : List Input) (os : List Output)
    (hs : Connected D s) (h : (grpc D).run s before = some (u, os)) (stable : Bool)
    (hcall : u.call = some (.message stable)) : stable = true ↔ Aged u (waitedFrom before) := by
  have hne : before ≠ [] := by
    rintro rfl
    rw [Machine.run_nil, Option.some.injEq, Prod.mk.injEq] at h
    rw [← h.1, (connected_client D s hs).2.2.1] at hcall
    cases hcall
  rcases Machine.takes_last (grpc D) s u before os hne h with ⟨earlier, i, w, new, rfl, htakes⟩
  rcases htakes with ⟨_, os₁, _, hrun, hstep⟩
  rw [waitedFrom, List.getLast?_concat]
  exact waiting_step D w i (u, new) (coherent_run D s w earlier os₁ hs hrun)
    ((moves_iff D w i (u, new)).mp hstep) stable hcall

/-- The call that takes a response was stable exactly when the response was
    waited for only since the connection was old enough. -/
theorem resets_iff (D : Deps) (s u : Config) (before : List Input) (os : List Output) (i : Input)
    (r : Config × List Output) (hs : Connected D s) (h : (grpc D).run s before = some (u, os))
    (hm : Moves D u i r) : Resets u i ↔ PromptResponse before u i := by
  constructor
  · rintro ⟨hcall, clock, hi⟩
    exact ⟨clock, hi, (waiting_run D s u before os hs h true hcall).mp rfl⟩
  · rintro ⟨clock, hi, haged⟩
    cases hm with
    | message c stable r clock' receivedAt =>
        rw [(waiting_run D s _ before os hs h stable rfl).mpr haged]
        exact ⟨rfl, clock, hi⟩
    | nextUpdate | updateFilters | close | slept | channel | response | dropCall => cases hi

/-! ### The backoff after a late response -/

/-- The number after a backoff is one exactly when it was at zero. -/
theorem saturatingSucc_eq_one (n : UInt32) : saturatingSucc n = 1 ↔ n = 0 := by
  have hnat := toNat_saturatingSucc n
  rw [← UInt32.toNat_inj, ← UInt32.toNat_inj, hnat, UInt32.toNat_one, UInt32.toNat_zero]
  omega

/-- The first backoff is drawn below the initial delay. -/
theorem first_backoff (w v : Config) (new : List Output) (h : BacksOff w v new)
    (hv : v.client.attempt = 1) : ∃ draw : ℚ, 0 ≤ draw ∧ draw < 1 ∧
      new = [.notice (.reconnecting 1 (Duration.fromSecsF64
          (min w.client.reconnect.initial.asSecs w.client.reconnect.max.asSecs * draw))),
        .sleep (Duration.fromSecsF64
          (min w.client.reconnect.initial.asSecs w.client.reconnect.max.asSecs * draw))] := by
  rcases h with ⟨_, _, delay, hdelay, hnew⟩
  have hbound : backoffBound w.client.reconnect 1
      = min w.client.reconnect.initial.asSecs w.client.reconnect.max.asSecs := by
    have hexp : (saturatingPred 1).toInt32.toInt = 0 := by decide
    rw [backoffBound, hexp, zpow_zero, mul_one]
  rw [hv, hbound] at hdelay
  rw [hv, hdelay] at hnew
  rcases Jitter.draw_range w.client.jitter with ⟨hnonneg, hlt⟩
  exact ⟨w.client.jitter.next.2, hnonneg, hlt, hnew⟩

/-- At the end of an episode the number is at zero exactly when the episode
    was prompt. -/
theorem episode_zero_iff (D : Deps) (s u w v : Config) (inputs before stretch : List Input)
    (new : List Output) (hs : Connected D s) (h : Episode D s inputs before stretch u w v new) :
    w.client.attempt = 0 ↔ u.client.attempt = 0 ∨ ∃ earlier i a b shown,
      (grpc D).Takes u stretch earlier i a b shown ∧ PromptResponse (before ++ earlier) a i := by
  rcases h.starts with ⟨os, hbefore⟩
  rcases h.lasts with ⟨os', hstretch, hquiet⟩
  rw [counter_zero_iff D stretch u w os' (coherent_run D s u before os hs hbefore) hstretch hquiet]
  -- Inside the stretch, the two ways to speak of a reset are the same.
  have hresets : ∀ earlier i a b shown, (grpc D).Takes u stretch earlier i a b shown →
      (Resets a i ↔ PromptResponse (before ++ earlier) a i) := by
    rintro earlier i a b shown ⟨_, os₁, _, hearlier, hstep⟩
    have hrun := (Machine.run_append (grpc D) s a before earlier (os ++ os₁)).mpr
      ⟨u, os, os₁, hbefore, hearlier, rfl⟩
    exact resets_iff D s a (before ++ earlier) (os ++ os₁) i (b, shown) hs hrun
      ((moves_iff D a i (b, shown)).mp hstep)
  refine or_congr_right ⟨?_, ?_⟩
  · rintro ⟨earlier, i, a, b, shown, htakes, hreset⟩
    exact ⟨earlier, i, a, b, shown, htakes, (hresets earlier i a b shown htakes).mp hreset⟩
  · rintro ⟨earlier, i, a, b, shown, htakes, hprompt⟩
    exact ⟨earlier, i, a, b, shown, htakes, (hresets earlier i a b shown htakes).mpr hprompt⟩

/-! ### Only a late response -/

/-- A connection does not get younger. -/
theorem aged_mono (u : Config) (now later : Instant) (hle : now ≤ later) (h : Aged u now) :
    Aged u later := by
  rcases h with ⟨stream, reqTx, since, hstate, hage⟩
  exact ⟨stream, reqTx, since, hstate, hage.trans (Nat.sub_le_sub_right hle since)⟩

/-- A call has begun to wait before the response comes. -/
theorem waitedFrom_le (before after : List Input) (i : Input) (clock : Clock)
    (hclock : NonDecreasing (before ++ i :: after)) (hi : responseOf i = some clock) :
    waitedFrom before ≤ clock.first := by
  have hfirst : clock.first ∈ readings i := by
    rcases i with _ | _ | _ | _ | ⟨_ | _ | response, clock', receivedAt⟩ | _ | _ | _
    case message.ok.some =>
      cases hi
      exact List.mem_cons_self
    all_goals cases hi
  rw [NonDecreasing, List.flatMap_append, List.flatMap_cons] at hclock
  have hle := (List.pairwise_append.mp hclock).2.2
  rcases List.eq_nil_or_concat before with rfl | ⟨earlier, j, rfl⟩
  · exact Nat.zero_le _
  · rw [List.concat_eq_append] at hle ⊢
    rw [waitedFrom, List.getLast?_concat]
    change enteredAt j ≤ clock.first
    have hentered : enteredAt j ∈ readings j ∨ enteredAt j = 0 := by
      cases j <;> simp [enteredAt, readings]
    rcases hentered with hentered | hentered
    · exact hle _ (List.mem_flatMap.mpr ⟨j, List.mem_append_right _ (List.mem_singleton_self j),
        hentered⟩) _ (List.mem_append_left _ hfirst)
    · rw [hentered]
      exact Nat.zero_le _

/-- The delays of a run restart as promised exactly when its episodes are
    prompt. -/
theorem restarts_iff (D : Deps) (s : Config) (inputs : List Input) (hs : Connected D s)
    (hclock : NonDecreasing inputs) : Restarts D s inputs ↔ Prompt D s inputs := by
  constructor
  · intro h before stretch u w v new hepisode
    have hone := (h.first before stretch u w v new hepisode).1
    rw [hepisode.backsOff.2.1, saturatingSucc_eq_one] at hone
    exact (episode_zero_iff D s u w v inputs before stretch new hs hepisode).mp hone
  · intro h
    constructor
    · intro before stretch u w v new hepisode
      have hzero := (episode_zero_iff D s u w v inputs before stretch new hs hepisode).mpr
        (h before stretch u w v new hepisode)
      have hone : v.client.attempt = 1 := by
        rw [hepisode.backsOff.2.1, saturatingSucc_eq_one]
        exact hzero
      exact ⟨hone, first_backoff w v new hepisode.backsOff hone⟩
    · -- A reset was prompt, and what is prompt is late as well.
      rintro before i u v new ⟨after, os, rfl, hbefore, hstep⟩
      have hm := (moves_iff D u i (v, new)).mp hstep
      rcases counter_step D u i (v, new) (coherent_run D s u before os hs hbefore) hm with
        hb | ⟨hreset, _⟩ | ⟨_, hkept⟩
      · exact Or.inr (Or.inl hb)
      · rcases (resets_iff D s u before os i (v, new) hs hbefore hm).mp hreset with
          ⟨clock, hi, haged⟩
        exact Or.inr (Or.inr ⟨clock, hi,
          aged_mono u _ _ (waitedFrom_le before after i clock hclock hi) haged⟩)
      · exact Or.inl hkept

/-- An episode of a run ends at one of its inputs. -/
theorem episode_ends (D : Deps) (s u w v : Config) (inputs before stretch : List Input)
    (new : List Output) (h : Episode D s inputs before stretch u w v new) :
    ∃ k i os, k < inputs.length ∧ inputs[k]? = some i ∧
      (grpc D).run s (inputs.take k) = some (w, os) ∧ (grpc D).step w i = some (v, new) := by
  rcases h.starts with ⟨os, hbefore⟩
  rcases h.lasts with ⟨os', hstretch, _⟩
  rcases h.ends with ⟨i, after, rfl, hstep⟩
  refine ⟨(before ++ stretch).length, i, os ++ os', ?_, ?_, ?_, hstep⟩
  · simp only [List.length_append, List.length_cons]
    omega
  · rw [List.getElem?_append_right (Nat.le_refl _), Nat.sub_self]
    rfl
  · rw [List.take_left]
    exact (Machine.run_append (grpc D) s w before stretch _).mpr
      ⟨u, os, os', hbefore, hstretch, rfl⟩

/-- The client has backed off once and is connected again at 4. From 5 on it
    waits; half a minute later an update comes, and after it the stream ends. -/
def lateRun : List Input :=
  [.nextUpdate 0, .message (.ok none) ⟨1, 2⟩ 0, .slept, .channel (.ok ()) 3,
    .response (.ok 1) ⟨4, 5⟩,
    .message (.ok (some ⟨[], some ⟨some ⟨[], [1]⟩, 7⟩, none⟩)) ⟨30000000004, 30000000005⟩ 0,
    .nextUpdate 30000000006, .message (.ok none) ⟨30000000007, 30000000008⟩ 0]

/-- The backoff that follows is the second, though the update came on a
    connection that was old enough. -/
theorem lateRun_continues : NonDecreasing lateRun ∧
    (∃ t os, (grpc openDeps).run plainStart lateRun = some (t, os) ∧ t.client.attempt = 2) ∧
    ¬ Restarts openDeps plainStart lateRun := by
  refine ⟨by decide, ⟨_, _, rfl, by decide⟩, fun h => ?_⟩
  have hepisode : Episode openDeps plainStart lateRun (lateRun.take 5) ((lateRun.drop 5).take 2)
      _ _ _ _ := {
    late := ⟨_, _, rfl, _, rfl, _, _, 4, rfl, by decide⟩
    starts := ⟨_, rfl⟩
    lasts := ⟨_, rfl, rfl⟩
    ends := ⟨_, _, rfl, rfl⟩
    backsOff := ⟨rfl, rfl, _, rfl, rfl⟩ }
  have hone := (h.first _ _ _ _ _ _ hepisode).1
  exact absurd hone (by decide)

/-- The same, but the update comes at once, and another one comes to a call
    made after half a minute. -/
def promptRun : List Input :=
  lateRun.take 5 ++
  [.message (.ok (some ⟨[], some ⟨some ⟨[], [1]⟩, 7⟩, none⟩)) ⟨6, 7⟩ 0, .nextUpdate 30000000004,
    .message (.ok (some ⟨[], some ⟨some ⟨[], [1]⟩, 8⟩, none⟩)) ⟨30000000005, 30000000006⟩ 0,
    .nextUpdate 30000000006, .message (.ok none) ⟨30000000007, 30000000008⟩ 0]

/-- Both backoffs are the first ones, and are announced as such. -/
theorem promptRun_restarts : Restarts openDeps plainStart promptRun ∧
    ∃ t os, (grpc openDeps).run plainStart promptRun = some (t, os) ∧
      announcementsOf os = [(1, 85979412), (1, 39430134)] := by
  constructor
  · refine (restarts_iff openDeps plainStart promptRun plainStart_connected (by decide)).mpr ?_
    intro before stretch u w v new hepisode
    refine (episode_zero_iff openDeps plainStart u w v promptRun before stretch new
      plainStart_connected hepisode).mp ?_
    have hsleep := hepisode.backsOff.1
    rcases episode_ends openDeps plainStart u w v promptRun before stretch new hepisode with
      ⟨k, i, os, hk, hi, hrun, hstep⟩
    change k < 10 at hk
    rcases k with _ | _ | _ | _ | _ | _ | _ | _ | _ | _ | k
    case succ => omega
    all_goals
      have hi' : some _ = some i := hi
      have hrun' : some (_, _) = some (w, os) := hrun
      cases hi'
      cases hrun'
      -- Where the number is not zero, the next step is no backoff.
      first
        | rfl
        | (have hstep' : some (_, _) = some (v, new) := hstep
           cases hstep'
           cases hsleep)
  · rw [← plain_delays.1, ← plain_delays.2.1]
    exact ⟨_, _, rfl, rfl⟩

end Grpc

end ShredStream
