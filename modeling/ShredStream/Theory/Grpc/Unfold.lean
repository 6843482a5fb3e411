import ShredStream.Theory.Grpc.Ending

/-!
# The Stream Adaptor Changes Nothing

Polling the adaptor is running `next_update` over and over on the client it
was built from. A poll consumes what becomes ready during it, so the polls of
a schedule, strung together, are the inputs of one run of the client, and the
items that come out are the results of that run. How the inputs are divided
into polls makes no difference.

The induction is over the polls. It carries that the future held by the
adaptor is the client as that run has left it, until the first `None`; from
there on the adaptor holds no future and consumes nothing.

## Main definitions

* `innerOf`, `readyOf`: What the client does, and what the polls return.
* `Running`, `Exhausted`: The adaptor before and after the first `None`.
* `Follows`: The polls so far are a run of the client.
* `EndsForGood`: What holds of the end of every client.
* `Scheduled`: The inputs of a run are those of a schedule.

## Theorems

* `pollFut_run`: A poll of the future is a stretch of the run.
* `follows_step`, `follows_run`: A schedule is a run of the client.
* `schedule_of_run`: Every run of the client has a schedule.
* `grpc_end`: The end is final, with the adaptor and without.
-/

namespace ShredStream

namespace Grpc

/-- What the client does while it is polled. -/
def innerOf (os : List StreamOutput) : List Output :=
  os.filterMap (fun | .inner o => some o | _ => none)

/-- What the polls return, those that are ready. -/
def readyOf (os : List StreamOutput) : List Item :=
  os.filterMap (fun | .polled (.ready item) => some item | _ => none)

/-- Before the first `None`: the future is the client as its run has left it,
    and the items are its results. -/
structure Running (u : Config) (s : Unfold) (os : List StreamOutput) : Prop where
  fut : s.fut = some u
  items : readyOf os = resultsOf (innerOf os)
  goesOn : none ∉ resultsOf (innerOf os)

/-- From the first `None` on: the client is finished, its results are the
    items up to the first `None`, and all later polls return `None`. -/
structure Exhausted (u : Config) (s : Unfold) (os : List StreamOutput) : Prop where
  fut : s.fut = none
  ended : Ended u
  items : ∃ items later, none ∉ items ∧ resultsOf (innerOf os) = items ++ [none] ∧
    readyOf os = items ++ none :: List.replicate later none

/-- The polls so far are a run of `next_update` calls on the client `c`. -/
def Follows (D : Deps) (c : GrpcClient) (polls : List (List Input)) (s : Unfold)
    (os : List StreamOutput) : Prop :=
  ∃ u, (grpc D).run ⟨c, none⟩ polls.flatten = some (u, innerOf os) ∧
    (∀ i ∈ polls.flatten, i.own = true) ∧ (Running u s os ∨ Exhausted u s os)

/-- The end of the stream of a client: one error at most, silence afterwards,
    and an adaptor that returns what the client does, as long as it does. -/
structure EndsForGood (D : Deps) (c : GrpcClient) : Prop where
  errors : ∀ inputs t os, (grpc D).run ⟨c, none⟩ inputs = some (t, os) → errorsOf os ≤ 1
  silent : ∀ before u os i v new, (grpc D).run ⟨c, none⟩ before = some (u, os) →
    (grpc D).step u i = some (v, new) → EndsAt i new → Silent D v
  follows : ∀ polls s os, (stream D).run (intoStream c) polls = some (s, os) →
    Follows D c polls s os
  exhausted : ∀ s : Unfold, s.fut = none →
    (stream D).step s [] = some (s, [.polled (.ready none)]) ∧
    ∀ events r, (stream D).step s events = some r → r = (s, [.polled (.ready none)])
  schedule : ∀ inputs t os, (grpc D).run ⟨c, none⟩ inputs = some (t, os) →
    (∀ i ∈ inputs, i.own = true) → none ∉ (resultsOf os).dropLast →
      ∃ polls s os', polls.flatten = inputs ∧
        (stream D).run (intoStream c) polls = some (s, os') ∧
        innerOf os' = os ∧ readyOf os' = resultsOf os

@[simp] theorem innerOf_append (os new : List StreamOutput) :
    innerOf (os ++ new) = innerOf os ++ innerOf new := List.filterMap_append

@[simp] theorem readyOf_append (os new : List StreamOutput) :
    readyOf (os ++ new) = readyOf os ++ readyOf new := List.filterMap_append

/-- What a poll lets out: the outputs of the client, then its own result. -/
theorem reports_poll (os : List Output) (p : Poll Item) :
    innerOf (os.map StreamOutput.inner ++ [.polled p]) = os ∧
      readyOf (os.map StreamOutput.inner ++ [.polled p])
        = match p with
          | .ready item => [item]
          | .pending => [] := by
  have hinner : innerOf (os.map StreamOutput.inner) = os := by
    rw [innerOf, List.filterMap_map]
    exact List.filterMap_some
  have hready : readyOf (os.map StreamOutput.inner) = [] := by
    rw [readyOf, List.filterMap_map]
    exact List.filterMap_eq_nil_iff.mpr (fun _ _ => rfl)
  constructor
  · rw [innerOf_append, hinner]
    exact List.append_nil os
  · rw [readyOf_append, hready]
    cases p <;> rfl

/-! ### A poll of the future -/

/-- What a poll says of the run it is a stretch of: the call goes on and has
    returned nothing, or it has just returned its only result. -/
def Reaches (p : Polled) (u : Config) (os : List Output) : Prop :=
  match p with
  | .pending fut => fut = u ∧ resultsOf os = []
  | .ready item client => u = ⟨client, none⟩ ∧ resultsOf os = [item] ∧ (item = none → Ended u)

/-- Outputs without a result in front of those of a poll. -/
theorem reaches_append (p : Polled) (u : Config) (new os : List Output) (h : Reaches p u os)
    (hnew : resultsOf new = []) : Reaches p u (new ++ os) := by
  have hsame : resultsOf (new ++ os) = resultsOf os := by
    rw [resultsOf_append, hnew, List.nil_append]
  cases p with
  | pending fut => exact ⟨h.1, hsame.trans h.2⟩
  | ready item client => exact ⟨h.1, hsame.trans h.2.1, h.2.2⟩

/-- A poll of the future is a stretch of the run of the client. -/
theorem pollFut_run (D : Deps) (events : List Input) : ∀ (fut : UnfoldFut) (p : Polled)
    (os : List Output), pollFut D fut events = some (p, os) →
      ∃ u, (grpc D).run fut events = some (u, os) ∧ (∀ i ∈ events, i.own = true) ∧
        Reaches p u os := by
  -- The induction is on what becomes ready during the poll.
  induction events with
  | nil =>
      intro fut p os h
      unfold pollFut at h
      split at h
      · cases h
        exact ⟨fut, rfl, nofun, rfl, rfl⟩
      · cases h
  | cons i events ih =>
      intro fut p os h
      unfold pollFut at h
      by_cases hown : i.own = true
      case neg =>
        rw [if_neg hown] at h
        cases h
      rw [if_pos hown] at h
      rcases hstep : step D fut i with _ | ⟨next, new⟩
      · rw [hstep] at h
        cases h
      rw [hstep] at h
      have hcons := Machine.run_cons_of_step (grpc D) fut next i events new hstep
      have hm := (moves_iff D fut i (next, new)).mp hstep
      rcases own_step D fut i (next, new) hown hm with
        ⟨await, _, hnone⟩ | ⟨item, hcall, hone, hend⟩
      · -- The call goes on, and so does the poll.
        simp only at hnone
        simp only [hnone, List.head?_nil, Option.map_eq_some_iff, Prod.mk.injEq] at h
        rcases h with ⟨⟨p', os'⟩, hrest, rfl, rfl⟩
        rcases ih next p' os' hrest with ⟨u, hrun, howns, hreach⟩
        refine ⟨u, ?_, List.forall_mem_cons.mpr ⟨hown, howns⟩, ?_⟩
        · rw [hcons, hrun]
          rfl
        · exact reaches_append p' u new os' hreach hnone
      · -- The call returns, and so does the poll.
        simp only at hone hcall hend
        simp only [hone, List.head?_cons] at h
        split at h
        · rename_i hempty
          cases h
          rw [List.isEmpty_iff] at hempty
          subst hempty
          refine ⟨next, ?_, List.forall_mem_cons.mpr ⟨hown, nofun⟩, ?_, hone, fun hitem => ?_⟩
          · rw [hcons, Machine.run_nil, Option.map_some, List.append_nil]
          · rw [← hcall]
          · exact hend.resolve_left (fun hu => by rw [hitem] at hu; exact hu)
        · cases h

/-- What one poll does, said from the outside. -/
theorem pollNext_cases (D : Deps) (s : Unfold) (events : List Input)
    (r : Unfold × List StreamOutput) (h : s.pollNext D events = some r) :
    (s.fut = none ∧ events = [] ∧ r = (s, [.polled (.ready none)])) ∨
    ∃ fut u os, s.fut = some fut ∧ (grpc D).run fut events = some (u, os) ∧
      (∀ i ∈ events, i.own = true) ∧
      ((r = (⟨some u⟩, os.map .inner ++ [.polled .pending]) ∧ resultsOf os = []) ∨
        ∃ item, resultsOf os = [item] ∧ (item = none → Ended u) ∧
          r = (⟨if item.isSome then some u else none⟩,
            os.map .inner ++ [.polled (.ready item)])) := by
  unfold Unfold.pollNext at h
  rcases hfut : s.fut with _ | fut
  · simp only [hfut] at h
    left
    split at h
    · rename_i hempty
      cases h
      exact ⟨rfl, List.isEmpty_iff.mp hempty, rfl⟩
    · cases h
  · simp only [hfut] at h
    right
    rcases hpoll : pollFut D fut events with _ | ⟨p, os⟩
    · rw [hpoll] at h
      cases h
    rcases pollFut_run D events fut p os hpoll with ⟨u, hrun, howns, hreach⟩
    rw [hpoll] at h
    refine ⟨fut, u, os, rfl, hrun, howns, ?_⟩
    cases p with
    | pending fut' =>
        rcases hreach with ⟨rfl, hnone⟩
        cases h
        exact Or.inl ⟨rfl, hnone⟩
    | ready item client =>
        rcases hreach with ⟨rfl, hone, hend⟩
        cases h
        exact Or.inr ⟨item, hone, hend, rfl⟩

/-! ### A schedule is a run of the client -/

theorem follows_start (D : Deps) (c : GrpcClient) : Follows D c [] (intoStream c) [] :=
  ⟨⟨c, none⟩, rfl, nofun, Or.inl ⟨rfl, rfl, nofun⟩⟩

/-- Where the results so far end with one more item. -/
theorem running_ready (u : Config) (s : Unfold) (os : List StreamOutput) (v : Config)
    (new : List Output) (item : Item) (h : Running u s os) (hone : resultsOf new = [item])
    (hend : item = none → Ended v) :
    let s' : Unfold := ⟨if item.isSome then some v else none⟩
    let os' := os ++ (new.map .inner ++ [.polled (.ready item)])
    Running v s' os' ∨ Exhausted v s' os' := by
  rcases reports_poll new (.ready item) with ⟨hinner, hready⟩
  have hresults : resultsOf (innerOf (os ++ (new.map .inner ++ [.polled (.ready item)])))
      = resultsOf (innerOf os) ++ [item] := by
    rw [innerOf_append, hinner, resultsOf_append, hone]
  have hitems : readyOf (os ++ (new.map .inner ++ [.polled (.ready item)]))
      = resultsOf (innerOf os) ++ [item] := by
    rw [readyOf_append, hready, h.items]
  cases item with
  | none =>
      -- The first `None`: no future is built any more.
      refine Or.inr ⟨rfl, hend rfl, resultsOf (innerOf os), 0, h.goesOn, hresults, hitems⟩
  | some result =>
      refine Or.inl ⟨rfl, hitems.trans hresults.symm, ?_⟩
      rw [hresults]
      intro hmem
      rcases List.mem_append.mp hmem with hmem | hmem
      · exact h.goesOn hmem
      · cases List.mem_singleton.mp hmem

/-- Where the call in progress goes on. -/
theorem running_pending (u : Config) (s : Unfold) (os : List StreamOutput) (v : Config)
    (new : List Output) (h : Running u s os) (hnone : resultsOf new = []) :
    Running v ⟨some v⟩ (os ++ (new.map .inner ++ [.polled .pending])) := by
  rcases reports_poll new .pending with ⟨hinner, hready⟩
  have hresults : resultsOf (innerOf (os ++ (new.map .inner ++ [.polled .pending])))
      = resultsOf (innerOf os) := by
    rw [innerOf_append, hinner, resultsOf_append, hnone, List.append_nil]
  refine ⟨rfl, ?_, ?_⟩
  · rw [hresults, readyOf_append, hready, List.append_nil]
    exact h.items
  · rw [hresults]
    exact h.goesOn

/-- After the first `None` a poll returns one more. -/
theorem exhausted_poll (u : Config) (s : Unfold) (os : List StreamOutput) (h : Exhausted u s os) :
    Exhausted u s (os ++ [.polled (.ready none)]) := by
  rcases h.items with ⟨items, later, hno, hresults, hready⟩
  refine ⟨h.fut, h.ended, items, later + 1, hno, ?_, ?_⟩
  · rw [innerOf_append, resultsOf_append, hresults]
    exact List.append_nil _
  · rw [readyOf_append, hready, List.replicate_succ', List.append_assoc]
    rfl

/-- A poll keeps the adaptor a run of the client. -/
theorem follows_step (D : Deps) (c : GrpcClient) (polls : List (List Input)) (s : Unfold)
    (os : List StreamOutput) (events : List Input) (r : Unfold × List StreamOutput)
    (h : Follows D c polls s os) (hstep : (stream D).step s events = some r) :
    Follows D c (polls ++ [events]) r.1 (os ++ r.2) := by
  rcases h with ⟨u, hrun, howns, hphase⟩
  have hflatten : (polls ++ [events]).flatten = polls.flatten ++ events := by
    rw [List.flatten_append, List.flatten_singleton]
  rcases pollNext_cases D s events r hstep with
    ⟨hnone, rfl, rfl⟩ | ⟨fut, v, new, hfut, hpoll, hnew, hr⟩
  · -- Nothing is consumed, and one more `None` is returned.
    rw [List.append_nil] at hflatten
    have hinner : innerOf (os ++ [.polled (.ready none)]) = innerOf os := by
      rw [innerOf_append]
      exact List.append_nil _
    refine ⟨u, ?_, ?_, Or.inr ?_⟩
    · rw [hflatten, hinner]
      exact hrun
    · rw [hflatten]
      exact howns
    · rcases hphase with hrunning | hexhausted
      · rw [hrunning.fut] at hnone
        cases hnone
      · exact exhausted_poll u s os hexhausted
  · -- A future that can be polled is there only before the first `None`.
    have hrunning : Running u s os := by
      rcases hphase with hrunning | hexhausted
      · exact hrunning
      · rw [hexhausted.fut] at hfut
        cases hfut
    have hsame : u = fut := Option.some.inj (hrunning.fut.symm.trans hfut)
    subst hsame
    have hall : ∀ i ∈ (polls ++ [events]).flatten, i.own = true := by
      intro i hi
      rw [hflatten] at hi
      rcases List.mem_append.mp hi with hi | hi
      · exact howns i hi
      · exact hnew i hi
    have hlonger : (grpc D).run ⟨c, none⟩ (polls ++ [events]).flatten
        = some (v, innerOf os ++ new) := by
      rw [hflatten]
      exact (Machine.run_append (grpc D) _ _ _ _ _).mpr ⟨u, _, new, hrun, hpoll, rfl⟩
    rcases hr with ⟨rfl, hnothing⟩ | ⟨item, hone, hend, rfl⟩
    · refine ⟨v, ?_, hall, Or.inl (running_pending u s os v new hrunning hnothing)⟩
      rw [innerOf_append, (reports_poll new .pending).1]
      exact hlonger
    · refine ⟨v, ?_, hall, running_ready u s os v new item hrunning hone hend⟩
      rw [innerOf_append, (reports_poll new (.ready item)).1]
      exact hlonger

theorem follows_run (D : Deps) (c : GrpcClient) (polls : List (List Input)) (s : Unfold)
    (os : List StreamOutput) (h : (stream D).run (intoStream c) polls = some (s, os)) :
    Follows D c polls s os :=
  Machine.run_invariant (stream D) (Follows D c)
    (fun polls s os events s' new hs hstep =>
      follows_step D c polls s os events (s', new) hs hstep)
    polls [] (intoStream c) s [] os (follows_start D c) h

/-! ### A run of the client has a schedule -/

/-- A poll during which one thing becomes ready. -/
theorem pollNext_single (D : Deps) (u v : Config) (i : Input) (new : List Output)
    (hown : i.own = true) (hstep : (grpc D).step u i = some (v, new)) :
    (resultsOf new = [] ∧ (stream D).step ⟨some u⟩ [i]
      = some (⟨some v⟩, new.map .inner ++ [.polled .pending])) ∨
    ∃ item, resultsOf new = [item] ∧ (IsUpdate item ∨ Ended v) ∧ (stream D).step ⟨some u⟩ [i]
      = some (⟨if item.isSome then some v else none⟩,
        new.map .inner ++ [.polled (.ready item)]) := by
  have hstep' : step D u i = some (v, new) := hstep
  rcases own_step D u i (v, new) hown ((moves_iff D u i (v, new)).mp hstep) with
    ⟨await, hcall, hnone⟩ | ⟨item, hcall, hone, hend⟩
  · simp only at hcall hnone
    refine Or.inl ⟨hnone, ?_⟩
    simp only [stream, Unfold.pollNext, pollFut, hown, if_true, hstep', hnone, List.head?_nil,
      hcall, Option.isSome_some, Option.map_some, List.append_nil]
  · simp only at hcall hone hend
    refine Or.inr ⟨item, hone, hend, ?_⟩
    have hv : (⟨v.client, none⟩ : Config) = v := by rw [← hcall]
    simp only [stream, Unfold.pollNext, pollFut, hown, if_true, hstep', hone, List.head?_cons,
      List.isEmpty_nil, hv]

/-- A finished client answers the next call with `None`. -/
theorem ended_own_step (D : Deps) (s : Config) (i : Input) (r : Config × List Output)
    (hs : Ended s) (hown : i.own = true) (hm : Moves D s i r) : resultsOf r.2 = [none] := by
  rcases hs with ⟨hstate, hcall⟩
  cases hm with
  | nextUpdate c now =>
      rw [enter_finished c now hstate]
      rfl
  | updateFilters | close => cases hown
  | slept | channel | response | message | dropCall => cases hcall

/-- A finished client would answer the next call with another `None`. -/
theorem nothing_left (D : Deps) (v t : Config) (inputs : List Input) (rest : List Output)
    (hv : Ended v) (hrun : (grpc D).run v inputs = some (t, rest))
    (howns : ∀ i ∈ inputs, i.own = true) (hlast : none ∉ (none :: resultsOf rest).dropLast) :
    inputs = [] := by
  rcases inputs with _ | ⟨i, inputs⟩
  · rfl
  exfalso
  rcases Machine.run_cons (grpc D) v t i inputs rest hrun with ⟨w, new, rest', hstep, _, rfl⟩
  have hone := ended_own_step D v i (w, new) hv (List.forall_mem_cons.mp howns).1
    ((moves_iff D v i (w, new)).mp hstep)
  simp only at hone
  rw [resultsOf_append, hone] at hlast
  exact hlast List.mem_cons_self

/-- The inputs are those of a schedule that polls once for each. -/
def Scheduled (D : Deps) (u : Config) (inputs : List Input) (os : List Output) : Prop :=
  ∃ s os', (stream D).run ⟨some u⟩ (inputs.map (fun i => [i])) = some (s, os') ∧
    innerOf os' = os ∧ readyOf os' = resultsOf os

/-- One more poll in front of a schedule. -/
theorem scheduled_cons (D : Deps) (u v : Config) (i : Input) (inputs : List Input)
    (new rest : List Output) (p : Poll Item)
    (hpoll : (stream D).step ⟨some u⟩ [i] = some (⟨some v⟩, new.map .inner ++ [.polled p]))
    (hready : readyOf (new.map .inner ++ [.polled p]) = resultsOf new)
    (h : Scheduled D v inputs rest) : Scheduled D u (i :: inputs) (new ++ rest) := by
  rcases h with ⟨s, os', hrun, hinner, hitems⟩
  refine ⟨s, (new.map .inner ++ [.polled p]) ++ os', ?_, ?_, ?_⟩
  · rw [List.map_cons, Machine.run_cons_of_step (stream D) _ _ _ _ _ hpoll, hrun]
    rfl
  · rw [innerOf_append, (reports_poll new p).1, hinner]
  · rw [readyOf_append, hready, hitems, resultsOf_append]

/-- The last poll of a schedule, which returns `None`. -/
theorem scheduled_last (D : Deps) (u : Config) (i : Input) (new : List Output)
    (hpoll : (stream D).step ⟨some u⟩ [i]
      = some (⟨none⟩, new.map .inner ++ [.polled (.ready none)]))
    (hone : resultsOf new = [none]) : Scheduled D u [i] new := by
  rcases reports_poll new (.ready none) with ⟨hinner, hready⟩
  refine ⟨⟨none⟩, new.map .inner ++ [.polled (.ready none)], ?_, hinner, hready.trans hone.symm⟩
  rw [List.map_cons, Machine.run_cons_of_step (stream D) _ _ _ _ _ hpoll]
  exact congrArg some (congrArg (Prod.mk _) (List.append_nil _))

/-- Every run of `next_update` calls that does not go on after a `None` is the
    run of a schedule. -/
theorem schedule_of_run (D : Deps) (inputs : List Input) : ∀ (u t : Config) (os : List Output),
    (grpc D).run u inputs = some (t, os) → (∀ i ∈ inputs, i.own = true) →
      none ∉ (resultsOf os).dropLast → Scheduled D u inputs os := by
  induction inputs with
  | nil =>
      intro u t os hrun _ _
      cases hrun
      exact ⟨⟨some u⟩, [], rfl, rfl, rfl⟩
  | cons i inputs ih =>
      intro u t os hrun howns hlast
      rcases Machine.run_cons (grpc D) u t i inputs os hrun with
        ⟨v, new, rest, hstep, hrest, rfl⟩
      rcases List.forall_mem_cons.mp howns with ⟨hown, howns'⟩
      rw [resultsOf_append] at hlast
      rcases pollNext_single D u v i new hown hstep with
        ⟨hnone, hpoll⟩ | ⟨item, hone, hend, hpoll⟩
      · rw [hnone, List.nil_append] at hlast
        refine scheduled_cons D u v i inputs new rest .pending hpoll ?_
          (ih v t rest hrest howns' hlast)
        rw [(reports_poll new .pending).2, hnone]
      · rw [hone, List.singleton_append] at hlast
        cases item with
        | some result =>
            refine scheduled_cons D u v i inputs new rest (.ready (some result)) hpoll
              ((reports_poll new _).2.trans hone.symm) (ih v t rest hrest howns' (fun hmem => ?_))
            have hne : resultsOf rest ≠ [] := by
              rintro heq
              rw [heq] at hmem
              cases hmem
            rw [List.dropLast_cons_of_ne_nil hne] at hlast
            exact hlast (List.mem_cons_of_mem _ hmem)
        | none =>
            -- The client is finished, so this was the last input.
            have hnil := nothing_left D v t inputs rest (hend.resolve_left not_false) hrest howns'
              hlast
            subst hnil
            cases hrest
            rw [List.append_nil]
            exact scheduled_last D u i new hpoll hone

/-- The end of a client's stream is final, and the adaptor changes nothing
    about it. -/
theorem grpc_end (D : Deps) (c : GrpcClient) : EndsForGood D c where
  errors inputs t os h := errors_run D ⟨c, none⟩ t inputs os h
  silent before u os i v new _ hstep hend :=
    silent_of_ended D v (ended_of_endsAt D u i (v, new) ((moves_iff D u i (v, new)).mp hstep) hend)
  follows polls s os h := follows_run D c polls s os h
  exhausted s hs := by
    refine ⟨?_, fun events r hr => ?_⟩
    · simp only [stream, Unfold.pollNext, hs, List.isEmpty_nil, if_true]
    · rcases pollNext_cases D s events r hr with ⟨_, _, hr⟩ | ⟨fut, _, _, hfut, _⟩
      · exact hr
      · rw [hs] at hfut
        cases hfut
  schedule inputs t os h howns hlast := by
    rcases schedule_of_run D inputs ⟨c, none⟩ t os h howns hlast with ⟨s, os', hrun, hin, hre⟩
    -- One poll for each input.
    refine ⟨inputs.map (fun i => [i]), s, os', ?_, hrun, hin, hre⟩
    rw [← List.flatMap_def, List.flatMap_singleton']

/-- A session the server closes, polled before, between and after. -/
example : ((stream openDeps).run (intoStream plainStart.client)
    [[.nextUpdate 0], [], [.message (.error ⟨.permissionDenied, "kicked"⟩) ⟨0, 0⟩ 0],
      [.nextUpdate 0], [], []]).map (fun r => readyOf r.2)
    = some [some (.error .kicked), none, none, none] := rfl

end Grpc

end ShredStream
