import ShredStream.Core.Unfold
import ShredStream.Theory.Grpc.Step

/-!
# The End of the gRPC Stream

A stretch of `next_update` returns at most one result, and it returns anything
but an update only from a client it leaves finished: the terminal error is
stored, found by the top of the loop and replaced in one go, so no call ever
starts on a client that holds one. A finished client has nothing left to do.

So a run returns at most one error, and after an error, an empty answer or a
`close` the client is silent, whatever filters it is given.

## Main definitions

* `IsUpdate`: The result is an update.
* `Stretch`: What a stretch between await points may return.
* `errorsOf`: The errors among the outputs.
* `EndsAt`: A step that ends the stream.
* `Silent`: Nothing but empty answers from here on.

## Theorems

* `results_step`: One result at most, and the last one ends the stream.
* `ended_frame`: A finished client changes nothing but its filters.
* `silent_of_ended`: A finished client is silent.
* `errors_run`: A run returns at most one error.
-/

namespace ShredStream

namespace Grpc

open GrpcClient Proto

/-- The result is an update, and the stream goes on. -/
def IsUpdate : Item → Prop
  | some (.ok _) => True
  | _ => False

/-- A stretch emits no result of its own, and comes to anything but an update
    only when it leaves the client finished. -/
structure Stretch (r : GrpcClient × Progress × List Output) : Prop where
  quiet : resultsOf r.2.2 = []
  ends : ∀ item, r.2.1 = .ready item → IsUpdate item ∨ r.1.state = .finished

/-- The errors among the outputs. -/
def errorsOf (os : List Output) : Nat :=
  (resultsOf os).countP (fun | some (.error _) => true | _ => false)

/-- The step closes the client or returns an error or an empty answer. -/
def EndsAt (i : Input) (new : List Output) : Prop :=
  i = .close ∨ ∃ item ∈ resultsOf new, ¬ IsUpdate item

/-- From `v` on every call for an update is answered at once with `None`, and
    nothing else is let out and nothing counted, whatever the filters become. -/
def Silent (D : Deps) (v : Config) : Prop :=
  ∀ after t os, (grpc D).run v after = some (t, os) →
    (∀ now, (grpc D).step t (.nextUpdate now) = some (t, [.returned none])) ∧
    (∀ o ∈ os, o = .returned none ∨ ∃ r, o = .filtersUpdated r) ∧
    t.client = { v.client with filters := t.client.filters }

@[simp] theorem resultsOf_append (os new : List Output) :
    resultsOf (os ++ new) = resultsOf os ++ resultsOf new := List.filterMap_append

@[simp] theorem errorsOf_append (os new : List Output) :
    errorsOf (os ++ new) = errorsOf os + errorsOf new := by
  rw [errorsOf, resultsOf_append, List.countP_append]
  rfl

/-! ### Stretches -/

section Stretches

variable (c : GrpcClient)

theorem stretch_enter (now : Instant) : Stretch (c.enter now) := by
  unfold enter
  cases h : c.state with
  | finished => exact ⟨rfl, fun item _ => Or.inr h⟩
  | terminal e => exact ⟨rfl, fun item _ => Or.inr rfl⟩
  | disconnected | connected => exact ⟨rfl, nofun⟩

theorem stretch_afterConnect (site : Site) (r : Except Status Unit) (now : Instant) :
    Stretch (c.afterConnect site r now) := by
  cases site <;> cases r
  case dataLoss.error e => exact stretch_enter { c with state := .disconnected } now
  all_goals exact stretch_enter c now

theorem stretch_onChannel (site : Site) (r : Except String Unit) (now : Instant) :
    Stretch (c.onChannel site r now) := by
  cases r with
  | error e => exact stretch_afterConnect c site _ now
  | ok u => exact ⟨rfl, nofun⟩

theorem stretch_onResponse (site : Site) (reqTx : Sender) (r : Except Status StreamId)
    (clock : Clock) : Stretch (c.onResponse site reqTx r clock) := by
  cases r with
  | error status => exact stretch_afterConnect c site _ _
  | ok stream =>
      have hs := stretch_afterConnect (c.subscribed stream reqTx clock.first).1 site (.ok ())
        clock.second
      refine ⟨?_, hs.ends⟩
      -- The notice of the new connection is no result.
      have hnotice : resultsOf (c.subscribed stream reqTx clock.first).2 = [] := by
        unfold subscribed
        cases c.everConnected <;> rfl
      simp only [onResponse, resultsOf_append, hnotice, hs.quiet, List.append_nil]

theorem stretch_onMessage (stable : Bool)
    (r : Except Status (Option SubscribeBinaryTransactionsResponse)) (clock : Clock)
    (receivedAt : SystemTime) : Stretch (c.onMessage stable r clock receivedAt) := by
  rcases r with status | _ | response
  · rcases hc : classify status with e | _ | _
    · simp only [onMessage, hc]
      exact stretch_enter _ _
    · by_cases hrecent : c.lastDataLoss.any
        (fun t => decide (t.elapsed clock.first < Duration.fromSecs 10)) = true
      · simp only [onMessage, hc, hrecent, if_true]
        exact stretch_enter _ _
      · simp only [onMessage, hc, hrecent, Bool.false_eq_true, if_false]
        refine ⟨rfl, fun item h => ?_⟩
        cases h
    · simp only [onMessage, hc]
      exact stretch_enter _ _
  · exact stretch_enter { c with state := .disconnected } clock.first
  · simp only [onMessage]
    rcases GrpcClient.toUpdate _ receivedAt response with ⟨c', _ | u⟩
    · exact stretch_enter c' _
    · refine ⟨rfl, fun item h => Or.inl ?_⟩
      cases h
      trivial

end Stretches

/-- What the step that ends a stretch returns: nothing while the call goes on,
    one result when it is over. -/
theorem settle_stretch (r : GrpcClient × Progress × List Output) (h : Stretch r) :
    (∃ await, (settle r).1.call = some await ∧ resultsOf (settle r).2 = []) ∨
    ∃ item, (settle r).1.call = none ∧ resultsOf (settle r).2 = [item] ∧
      (IsUpdate item ∨ Ended (settle r).1) := by
  rcases r with ⟨c, item | await, os⟩
  · have hos : resultsOf os = [] := h.quiet
    refine Or.inr ⟨item, rfl, ?_, ?_⟩
    · rw [settle, resultsOf_append, hos]
      rfl
    · rcases h.ends item rfl with hu | hfinished
      · exact Or.inl hu
      · exact Or.inr ⟨hfinished, rfl⟩
  · exact Or.inl ⟨await, rfl, h.quiet⟩

/-- The inputs of the body of `next_update` take the call on to its next await
    point or to its result. -/
theorem own_step (D : Deps) (s : Config) (i : Input) (r : Config × List Output)
    (hown : i.own = true) (hm : Moves D s i r) :
    (∃ await, r.1.call = some await ∧ resultsOf r.2 = []) ∨
    ∃ item, r.1.call = none ∧ resultsOf r.2 = [item] ∧ (IsUpdate item ∨ Ended r.1) := by
  cases hm with
  | nextUpdate c now => exact settle_stretch _ (stretch_enter c now)
  | slept c => exact settle_stretch _ ⟨rfl, nofun⟩
  | channel c site r now => exact settle_stretch _ (stretch_onChannel c site r now)
  | response c site reqTx r clock =>
      exact settle_stretch _ (stretch_onResponse c site reqTx r clock)
  | message c stable r clock receivedAt =>
      exact settle_stretch _ (stretch_onMessage c stable r clock receivedAt)
  | updateFilters | close | dropCall => cases hown

/-- The other inputs return no result of `next_update`. -/
theorem foreign_step (D : Deps) (s : Config) (i : Input) (r : Config × List Output)
    (hown : i.own = false) (hm : Moves D s i r) : resultsOf r.2 = [] := by
  cases hm with
  | updateFilters c filters sent =>
      rcases updateFilters_cases D c filters sent with
        ⟨e, _, heq⟩ | ⟨_, stream, reqTx, since, _, heq⟩ | ⟨_, _, heq⟩ <;> rw [heq]
      case inr.inl => cases sent <;> rfl
      all_goals rfl
  | close | dropCall => rfl
  | nextUpdate | slept | channel | response | message => cases hown

/-- A step returns one result at most, and anything but an update only as the
    end of the stream. -/
theorem results_step (D : Deps) (s : Config) (i : Input) (r : Config × List Output)
    (hm : Moves D s i r) :
    resultsOf r.2 = [] ∨ ∃ item, resultsOf r.2 = [item] ∧ (IsUpdate item ∨ Ended r.1) := by
  cases hown : i.own with
  | true =>
      rcases own_step D s i r hown hm with ⟨_, _, hnone⟩ | ⟨item, _, hone, hend⟩
      · exact Or.inl hnone
      · exact Or.inr ⟨item, hone, hend⟩
  | false => exact Or.inl (foreign_step D s i r hown hm)

/-- A step that ends the stream leaves the client finished. -/
theorem ended_of_endsAt (D : Deps) (s : Config) (i : Input) (r : Config × List Output)
    (hm : Moves D s i r) (h : EndsAt i r.2) : Ended r.1 := by
  rcases h with rfl | ⟨item, hitem, hno⟩
  · cases hm with
    | close c => exact ⟨rfl, rfl⟩
  · rcases results_step D s i r hm with hnone | ⟨item', hone, hend⟩
    · rw [hnone] at hitem
      cases hitem
    · rw [hone, List.mem_singleton] at hitem
      exact hend.resolve_left (hitem ▸ hno)

/-! ### A finished client is silent -/

/-- A finished client changes nothing but its filters. -/
theorem ended_frame (D : Deps) (s : Config) (i : Input) (r : Config × List Output) (hs : Ended s)
    (hm : Moves D s i r) : r.1.client = { s.client with filters := r.1.client.filters } := by
  rcases hs with ⟨hstate, hcall⟩
  cases hm with
  | nextUpdate c now => rw [enter_finished c now hstate]
  | updateFilters c filters sent =>
      rcases updateFilters_cases D c filters sent with
        ⟨e, _, heq⟩ | ⟨_, stream, reqTx, since, hconnected, _⟩ | ⟨_, _, heq⟩
      · rw [heq]
      · cases hstate.symm.trans hconnected
      · rw [heq]
  -- `close` sets the state that it finds here anyway.
  | close c =>
      simp only [GrpcClient.close]
      rw [← hstate]
  | slept | channel | response | message | dropCall => cases hcall

/-- A finished client answers at once. -/
theorem ended_answers (D : Deps) (s : Config) (now : Instant) (hs : Ended s) :
    (grpc D).step s (.nextUpdate now) = some (s, [.returned none]) := by
  rcases s with ⟨c, call⟩
  rcases hs with ⟨hstate, hcall⟩
  simp only at hcall
  rw [hcall]
  exact congrArg some (enter_finished c now hstate)

theorem silent_of_ended (D : Deps) (v : Config) (hv : Ended v) : Silent D v := by
  intro after t os hrun
  rcases ended_run D v t after os hv hrun with ⟨ht, hos⟩
  refine ⟨fun now => ended_answers D t now ht, hos, ?_⟩
  refine (run_moves D
    (fun _ u _ => Ended u ∧ u.client = { v.client with filters := u.client.filters })
    ?_ v t after os ⟨hv, rfl⟩ hrun).2
  -- Finished states change only in their filters, so the frames compose.
  rintro _ u _ i r ⟨hu, hframe⟩ hm
  refine ⟨(ended_step D u i r hu hm).1, ?_⟩
  rw [ended_frame D u i r hu hm, hframe]

/-! ### One error at most -/

/-- A result that is an update is no error. -/
theorem errorsOf_single (os : List Output) (item : Item) (h : resultsOf os = [item]) :
    errorsOf os ≤ 1 ∧ (IsUpdate item → errorsOf os = 0) := by
  rw [errorsOf, h]
  refine ⟨List.countP_le_length, fun hu => ?_⟩
  rcases item with _ | _ | u
  · exact hu.elim
  · exact hu.elim
  · rfl

/-- No error follows the end, and none comes without it. -/
theorem errors_run (D : Deps) (s t : Config) (inputs : List Input) (os : List Output)
    (h : (grpc D).run s inputs = some (t, os)) : errorsOf os ≤ 1 := by
  -- An error is counted in the same step that finishes the client.
  have hinv := run_moves D (fun _ u os => errorsOf os = 0 ∨ errorsOf os = 1 ∧ Ended u) ?_
    s t inputs os (Or.inl rfl) h
  · rcases hinv with h0 | ⟨h1, _⟩
    · exact h0 ▸ Nat.zero_le 1
    · exact Nat.le_of_eq h1
  intro _ u os i r hu hm
  rw [errorsOf_append]
  rcases hu with h0 | ⟨h1, hended⟩
  · rcases results_step D u i r hm with hnone | ⟨item, hone, hend⟩
    · have hzero : errorsOf r.2 = 0 := by
        rw [errorsOf, hnone]
        rfl
      exact Or.inl (by omega)
    · rcases errorsOf_single r.2 item hone with ⟨hle, hupdate⟩
      rcases hend with hu | hended
      · have hzero := hupdate hu
        exact Or.inl (by omega)
      · by_cases hzero : errorsOf r.2 = 0
        · exact Or.inl (by omega)
        · exact Or.inr ⟨by omega, hended⟩
  · -- After the end the answers are empty.
    rcases ended_step D u i r hended hm with ⟨hended', hnew⟩
    have hzero : errorsOf r.2 = 0 := by
      rw [errorsOf, resultsOf, List.countP_filterMap, List.countP_eq_zero]
      intro o ho
      rcases hnew o ho with rfl | ⟨r, rfl⟩ <;> nofun
    exact Or.inr ⟨by omega, hended'⟩

end Grpc

end ShredStream
