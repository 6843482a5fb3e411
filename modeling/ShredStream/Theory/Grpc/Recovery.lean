import ShredStream.Theory.Grpc.Delivery
import ShredStream.Theory.Grpc.Draws

/-!
# Recovering

A client that has lost its connection comes back. A call of `next_update` that
is in progress stands at one of four await points, each a step nearer to an
update than the one before: it sleeps, connects, subscribes, waits for a
message. An answer of a working server takes it one step on, and anything else
takes it back, at worst to the sleep. So a call that is answered has returned
an update after four answers and four more for every setback, whatever was
lost before, and it never stands where no answer could take it on.

Only a status that refuses the client on the stream, and `close`, end the
stream. What the user did before does not matter: calls that were dropped
anywhere, other filters, any number of lost connections.

The factor of the policy must not be negative. Nobody checks it, and with a
negative one the second backoff panics in `Duration::from_secs_f64`.

## Main definitions

* `State.Live`: The stream has not ended.
* `Input.Answer`, `Input.setback`, `Input.ends`: What an input means for a call.
* `Await.left`: The answers that are left until an update.
* `Recovering`: How far a call has come after some answers.

## Theorems

* `live_step`, `live_run`: What keeps a stream from ending.
* `recovering_step`: One answer.
* `grpc_recovers`: From every reachable state.
-/

namespace ShredStream

namespace Grpc

open GrpcClient Proto

/-- The stream has not ended. -/
def State.Live : State → Prop
  | .disconnected | .connected .. => True
  | .terminal _ | .finished => False

/-- What a call in progress waits for. -/
def Input.Answer : Input → Prop
  | .slept | .channel _ _ | .response _ _ | .message _ _ _ => True
  | _ => False

/-- The answer brings the call no nearer to an update. -/
def Input.setback : Input → Bool
  | .slept => false
  | .channel (.ok _) _ => false
  | .response (.ok _) _ => false
  | .message (.ok (some answer)) _ receivedAt => (image answer receivedAt).isNone
  | _ => true

/-- The stream ends: the user closes the client, or the server refuses it on
    the stream. -/
def Input.ends : Input → Bool
  | .close => true
  | .message (.error status) _ _ => match classify status with
    | .terminal _ => true
    | _ => false
  | _ => false

/-- The answers that are left until an update. -/
def Await.left : Await → Nat
  | .sleep => 4
  | .connect _ => 3
  | .subscribe .. => 2
  | .message _ => 1

/-- The setbacks among some answers. -/
def setbacksOf (answers : List Input) : Nat := answers.countP Input.setback

theorem left_pos (a : Await) : 1 ≤ a.left ∧ a.left ≤ 4 := by
  cases a with
  | sleep | connect | subscribe | message =>
      rw [Await.left]
      omega

/-! ### A stream that has not ended -/

theorem live_ne (c : GrpcClient) (h : c.state.Live) :
    c.state ≠ .finished ∧ ∀ e, c.state ≠ .terminal e := by
  refine ⟨fun hs => ?_, fun e hs => ?_⟩
  · rw [hs] at h
    exact h
  · rw [hs] at h
    exact h

/-- A live client waits at the top of the loop, and stays live. -/
theorem live_enter (c : GrpcClient) (now : Instant) (h : c.state.Live) :
    (settle (c.enter now)).1.client.state.Live ∧
      ∃ await, (settle (c.enter now)).1.call = some await := by
  rcases live_ne c h with ⟨hfinished, hterminal⟩
  have hentered := entered_enter c now
  generalize settle (c.enter now) = q at hentered ⊢
  cases hentered with
  | finished hs => exact absurd hs hfinished
  | terminal e hs => exact absurd hs (hterminal e)
  | disconnected hs =>
      refine ⟨?_, _, rfl⟩
      change c.state.Live
      exact h
  | connected stream reqTx since hs => exact ⟨h, _, rfl⟩

theorem live_afterConnect (c : GrpcClient) (site : Site) (r : Except Status Unit) (now : Instant)
    (h : c.state.Live) : (settle (c.afterConnect site r now)).1.client.state.Live ∧
      ∃ await, (settle (c.afterConnect site r now)).1.call = some await := by
  cases site <;> cases r
  case dataLoss.error e => exact live_enter { c with state := .disconnected } now trivial
  all_goals exact live_enter c now h

/-- Replacing the map leaves a live client live. -/
theorem updateFilters_live (D : Deps) (c : GrpcClient) (filters : Filters) (sent : Sent)
    (h : c.state.Live) : (c.updateFilters D filters sent).1.state.Live := by
  rcases updateFilters_cases D c filters sent with ⟨e, _, heq⟩ | ⟨_, stream, reqTx, since, _, heq⟩ |
    ⟨_, _, heq⟩ <;> rw [heq]
  · exact h
  · trivial
  · exact h

/-- What a call has come to that was answered: it is nearer to an update, or
    was set back, or has returned one. -/
def Answered (await : Await) (i : Input) (r : Config × List Output) : Prop :=
  r.1.client.state.Live ∧
    ((∃ await', r.1.call = some await' ∧ 1 + await'.left ≤ await.left + 4 * setbacksOf [i]) ∨
      (r.1.call = none ∧ ∃ u, r.2 = [.returned (some (.ok u))]))

/-- A setback, from wherever it leads. -/
theorem answered_setback (await : Await) (i : Input) (r : Config × List Output)
    (hi : i.setback = true) (h : r.1.client.state.Live ∧ ∃ await', r.1.call = some await') :
    Answered await i r := by
  rcases h with ⟨hlive, await', hcall⟩
  have hle := left_pos await
  have hle' := left_pos await'
  have hone : setbacksOf [i] = 1 := by
    rw [setbacksOf, List.countP_singleton, if_pos hi]
  exact ⟨hlive, Or.inl ⟨await', hcall, by omega⟩⟩

/-- A response is returned if it stands for an update. -/
theorem answered_response (c : GrpcClient) (stable : Bool)
    (response : SubscribeBinaryTransactionsResponse) (clock : Clock) (receivedAt : SystemTime)
    (h : c.state.Live) :
    Answered (.message stable) (.message (.ok (some response)) clock receivedAt)
      (settle (c.onMessage stable (.ok (some response)) clock receivedAt)) := by
  obtain ⟨c', hc', hstate⟩ : ∃ c', (if stable then { c with attempt := 0 } else c) = c' ∧
      c'.state = c.state := by
    cases stable with
    | true => exact ⟨_, rfl, rfl⟩
    | false => exact ⟨_, rfl, rfl⟩
  rw [← hstate] at h
  simp only [onMessage, hc', toUpdate_image]
  cases hi : image response receivedAt with
  | some u => exact ⟨h, Or.inr ⟨rfl, u, rfl⟩⟩
  | none =>
      refine answered_setback _ _ _ ?_ (live_enter c'.countDecodeError clock.first h)
      rw [Input.setback, hi]
      rfl

/-- One answer to a call of a live client. -/
theorem recovering_step (D : Deps) (s : Config) (i : Input) (r : Config × List Output)
    (await : Await) (hs : s.client.state.Live) (hcall : s.call = some await) (hi : i.Answer)
    (hends : i.ends = false) (hm : Moves D s i r) : Answered await i r := by
  cases hm with
  | nextUpdate | updateFilters | close | dropCall => exact hi.elim
  | slept c =>
      cases hcall
      exact ⟨hs, Or.inl ⟨.connect .disconnected, rfl, (by decide : 1 + 3 ≤ 4)⟩⟩
  | channel c site res now =>
      cases hcall
      cases res with
      | error e => exact answered_setback _ _ _ rfl (live_afterConnect c site _ now hs)
      | ok u => exact ⟨hs, Or.inl ⟨_, rfl, (by decide : 1 + 2 ≤ 3)⟩⟩
  | response c site reqTx res clock =>
      cases hcall
      cases res with
      | error status => exact answered_setback _ _ _ rfl (live_afterConnect c site _ _ hs)
      | ok stream =>
          rw [onResponse_ok]
          -- The loop is entered with the new connection, so it waits for a message.
          rw [enter_connected (c.subscribed stream reqTx clock.first).1 clock.second stream reqTx
            clock.first rfl]
          exact ⟨trivial, Or.inl ⟨_, rfl, (by decide : 1 + 1 ≤ 2)⟩⟩
  | message c stable res clock receivedAt =>
      cases hcall
      rcases res with status | _ | response
      · have hheard := heard_onMessage c stable (.error status) clock receivedAt
        generalize settle (c.onMessage stable (.error status) clock receivedAt) = q at hheard ⊢
        cases hheard with
        | terminal _ e hc =>
            rw [Input.ends, hc] at hends
            cases hends
        | recoverable =>
            exact answered_setback _ _ _ rfl
              (live_enter { c with state := .disconnected } _ trivial)
        | recent => exact answered_setback _ _ _ rfl (live_enter
            { c with lastDataLoss := some clock.second, state := .disconnected } _ trivial)
        | immediate => exact answered_setback _ _ _ rfl ⟨hs, _, rfl⟩
      · exact answered_setback _ _ _ rfl
          (live_enter { c with state := .disconnected } clock.first trivial)
      · exact answered_response c stable response clock receivedAt hs

/-- Nothing ends the stream but what ends it. -/
theorem live_step (D : Deps) (s : Config) (i : Input) (r : Config × List Output)
    (hs : s.client.state.Live) (hends : i.ends = false) (hm : Moves D s i r) :
    r.1.client.state.Live := by
  have hm' := hm
  cases hm with
  | nextUpdate c now => exact (live_enter c now hs).1
  | updateFilters c filters sent => exact updateFilters_live D c filters sent hs
  | close c => cases hends
  | slept | channel | response | message =>
      refine (recovering_step D _ _ _ _ hs rfl ?_ hends hm').1
      trivial
  | dropCall c await => exact hs

theorem live_run (D : Deps) (s t : Config) (inputs : List Input) (os : List Output)
    (hs : Connected D s) (hends : ∀ i ∈ inputs, i.ends = false)
    (h : (grpc D).run s inputs = some (t, os)) : t.client.state.Live := by
  rcases connected_client D s hs with ⟨_, _, _, _, stream, since, hstate⟩
  have h0 : s.client.state.Live := by
    rw [hstate]
    trivial
  refine run_moves D (fun before u _ => (∀ i ∈ before, i.ends = false) → u.client.state.Live)
    ?_ s t inputs os (fun _ => h0) h hends
  intro before u _ i r hu hm hall
  refine live_step D u i r (hu (fun j hj => hall j (List.mem_append_left _ hj))) ?_ hm
  exact hall i (List.mem_append_right _ (List.mem_singleton_self i))

/-! ### A call that is answered -/

/-- A call that stood at `await`, after some answers: it has come nearer to an
    update by as many as there were, but for the setbacks, or has returned
    one. -/
def Recovering (await : Await) (answers : List Input) (t : Config) (os : List Output) : Prop :=
  (∃ await', t.call = some await' ∧
    answers.length + await'.left ≤ await.left + 4 * setbacksOf answers) ∨
  (t.call = none ∧ ∃ shown u, os = shown ++ [.returned (some (.ok u))])

theorem recovering_run (D : Deps) (s t : Config) (answers : List Input) (os : List Output)
    (await : Await) (hs : s.client.state.Live) (hcall : s.call = some await)
    (hanswers : ∀ i ∈ answers, i.Answer ∧ i.ends = false)
    (h : (grpc D).run s answers = some (t, os)) :
    t.client.state.Live ∧ Recovering await answers t os := by
  refine run_moves D (fun before u os => (∀ i ∈ before, i.Answer ∧ i.ends = false) →
    u.client.state.Live ∧ Recovering await before u os) ?_ s t answers os ?_ h hanswers
  · intro before u os i r hu hm hall
    rcases hu (fun j hj => hall j (List.mem_append_left _ hj)) with ⟨hlive, hrec⟩
    rcases hall i (List.mem_append_right _ (List.mem_singleton_self i)) with ⟨hi, hends⟩
    rcases hrec with ⟨await', hcall', hle⟩ | ⟨hnone, _⟩
    · rcases recovering_step D u i r await' hlive hcall' hi hends hm with
        ⟨hlive', ⟨await'', hcall'', hle'⟩ | ⟨hnone', x, hx⟩⟩
      · refine ⟨hlive', Or.inl ⟨await'', hcall'', ?_⟩⟩
        have hsum : setbacksOf (before ++ [i]) = setbacksOf before + setbacksOf [i] :=
          List.countP_append
        rw [List.length_append, List.length_singleton, hsum]
        omega
      · exact ⟨hlive', Or.inr ⟨hnone', os, x, by rw [hx]⟩⟩
    · -- A call that has returned waits for nothing.
      cases hm with
      | nextUpdate | updateFilters | close => exact hi.elim
      | slept | channel | response | message | dropCall => cases hnone
  · refine fun _ => ⟨hs, Or.inl ⟨await, hcall, ?_⟩⟩
    rw [List.length_nil, Nat.zero_add]
    exact Nat.le_add_right _ _

/-- Whatever a call waits for, a working server can give. -/
theorem answerable (D : Deps) (c : GrpcClient) (await : Await) :
    ∃ i, i.Answer ∧ i.setback = false ∧ ((grpc D).step ⟨c, some await⟩ i).isSome := by
  cases await with
  | sleep => exact ⟨.slept, trivial, rfl, rfl⟩
  | connect site => exact ⟨.channel (.ok ()) 0, trivial, rfl, rfl⟩
  | subscribe site reqTx => exact ⟨.response (.ok 0) ⟨0, 0⟩, trivial, rfl, rfl⟩
  | message stable =>
      exact ⟨.message (.ok (some ⟨[], some ⟨some ⟨[], [0]⟩, 0⟩, none⟩)) ⟨0, 0⟩ 0, trivial, rfl, rfl⟩

/-- With a factor that is not negative a backoff does not panic, wherever a run
    has led. -/
theorem bounds_nonneg (D : Deps) (s t : Config) (inputs : List Input) (os : List Output)
    (hmultiplier : 0 ≤ s.client.reconnect.multiplier)
    (h : (grpc D).run s inputs = some (t, os)) (attempt : UInt32) :
    0 ≤ backoffBound t.client.reconnect attempt := by
  rw [(drawn_run D s t inputs os h).reconnect]
  exact backoffBound_nonneg _ attempt hmultiplier

/-- From every state that a connected client reaches without being closed and
    without being refused on the stream: a new call waits, and a call that is
    answered has returned an update after four answers and four more for every
    setback. Until then it can be answered, and no backoff on the way is given
    a negative bound, on which it would panic. -/
theorem grpc_recovers (D : Deps) (s t : Config) (inputs : List Input) (os : List Output)
    (hs : Connected D s) (hmultiplier : 0 ≤ s.client.reconnect.multiplier)
    (hends : ∀ i ∈ inputs, i.ends = false) (h : (grpc D).run s inputs = some (t, os)) :
    (∀ attempt, 0 ≤ backoffBound t.client.reconnect attempt) ∧
    (t.call = none → ∀ now, ∃ c await shown,
      (grpc D).step t (.nextUpdate now) = some (⟨c, some await⟩, shown)) ∧
    ∀ answers u shown, t.call.isSome → (∀ i ∈ answers, i.Answer ∧ i.ends = false) →
      (grpc D).run t answers = some (u, shown) →
      (∀ attempt, 0 ≤ backoffBound u.client.reconnect attempt) ∧
      (4 * (setbacksOf answers + 1) ≤ answers.length → u.call = none) ∧
      (u.call = none → ∃ before update, shown = before ++ [.returned (some (.ok update))]) ∧
      (u.call.isSome → ∃ i, i.Answer ∧ i.setback = false ∧ ((grpc D).step u i).isSome) := by
  have hlive := live_run D s t inputs os hs hends h
  refine ⟨bounds_nonneg D s t inputs os hmultiplier h, fun hcall now => ?_,
    fun answers u shown hcall hanswers hrun => ⟨?_, ?_⟩⟩
  · rcases t with ⟨c, call⟩
    simp only at hcall
    subst hcall
    rcases live_enter c now hlive with ⟨_, await, hawait⟩
    refine ⟨(settle (c.enter now)).1.client, await, (settle (c.enter now)).2, ?_⟩
    rw [(moves_iff D _ _ _).mpr (Moves.nextUpdate c now), ← hawait]
  · refine bounds_nonneg D t u answers shown ?_ hrun
    rw [(drawn_run D s t inputs os h).reconnect]
    exact hmultiplier
  · rcases Option.isSome_iff_exists.mp hcall with ⟨await, hawait⟩
    have hle := (left_pos await).2
    rcases (recovering_run D t u answers shown await hlive hawait hanswers hrun).2 with
      ⟨await', hcall', hcount⟩ | ⟨hnone, before, update, hshown⟩
    · have hpos := (left_pos await').1
      refine ⟨fun hmany => ?_, fun hnone => ?_, fun _ => ?_⟩
      · omega
      · rw [hcall'] at hnone
        cases hnone
      · rcases answerable D u.client await' with ⟨i, hi, hsetback, hsome⟩
        refine ⟨i, hi, hsetback, ?_⟩
        rwa [← hcall'] at hsome
    · refine ⟨fun _ => hnone, fun _ => ⟨before, update, hshown⟩, fun hsome => ?_⟩
      rw [hnone] at hsome
      cases hsome

/-- The connection is lost, and the first attempt to restore it fails. -/
def restoredAnswers : List Input :=
  [.message (.ok none) ⟨0, 0⟩ 0, .slept, .channel (.error "refused") 0, .slept,
    .channel (.ok ()) 0, .response (.ok 1) ⟨0, 0⟩,
    .message (.ok (some oneByteResponse)) ⟨0, 0⟩ 4]

/-- The call that was in progress returns an update all the same. -/
theorem restored_recovers : ∃ t os u shown,
    (grpc openDeps).run plainStart [.nextUpdate 0] = some (t, os) ∧
    (grpc openDeps).run t restoredAnswers = some (u, shown) ∧
    ∃ before update, shown = before ++ [.returned (some (.ok update))] := by
  have hrun : ∃ t os u shown, (grpc openDeps).run plainStart [.nextUpdate 0] = some (t, os) ∧
      (grpc openDeps).run t restoredAnswers = some (u, shown) ∧ t.call.isSome ∧ u.call = none :=
    ⟨_, _, _, _, rfl, rfl, rfl, rfl⟩
  rcases hrun with ⟨t, os, u, shown, h, hanswers, hcall, hnone⟩
  have hall : ∀ i ∈ restoredAnswers, i.Answer ∧ i.ends = false := by
    intro i hi
    simp only [restoredAnswers, List.mem_cons, List.not_mem_nil, or_false] at hi
    rcases hi with rfl | rfl | rfl | rfl | rfl | rfl | rfl <;> exact ⟨trivial, rfl⟩
  have hends : ∀ i ∈ [Input.nextUpdate 0], i.ends = false := by
    intro i hi
    rw [List.mem_singleton.mp hi]
    rfl
  exact ⟨t, os, u, shown, h, hanswers,
    ((grpc_recovers openDeps plainStart t _ os plainStart_connected (by decide) hends h).2.2
      restoredAnswers u shown hcall hall hanswers).2.2.1 hnone⟩

end Grpc

end ShredStream
