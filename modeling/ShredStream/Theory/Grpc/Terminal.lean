import ShredStream.Theory.Grpc.Step

/-!
# Terminal Statuses

What happens when the server refuses the client for good: the token is
rejected, the session is closed, or the filter map is not accepted.

Such a status can arrive in two ways. On the response stream it does what it
should: the call in progress returns the error, the client is finished, and
nothing is attempted any more. As the answer to a re-subscription it does
not. `try_connect` reports it to the loop, but the disconnected arm throws
the result away, and after a data loss any failure only disconnects, so the
client sleeps and tries again.

`terminalEnds_iff` says that this is the whole difference: a run treats every
terminal status as the end exactly when none of its re-subscriptions is
answered with one.

## Main definitions

* `Input.terminal?`: The error of a terminal status in an answer.
* `Input.refusal?`: The same, for the answer to a re-subscription only.
* `TerminalEnds`: Every terminal status ends the stream with its error.
* `refusedRun`: A run whose re-subscription is refused.

## Theorems

* `message_terminal`: A terminal status on the stream ends it.
* `refusal_sleeps`: A refused re-subscription is slept over.
* `message_step`, `refusal_step`: The two, as steps of the machine.
* `terminalEnds_iff`: When a run treats terminal statuses as the end.
* `refusedRun_attempts_again`: The refused client tries again.
-/

namespace ShredStream

namespace Grpc

open GrpcClient Proto

/-- The error a result carries when its status is a terminal one. -/
def terminalOf {α : Type} : Except Status α → Option StreamError
  | .error status => match classify status with
    | .terminal e => some e
    | _ => none
  | .ok _ => none

/-- The error of a terminal status the server answers with, on the stream or
    to a re-subscription. -/
def Input.terminal? : Input → Option StreamError
  | .message r _ _ => terminalOf r
  | .response r _ => terminalOf r
  | _ => none

/-- The error of a terminal status that answers a re-subscription. -/
def Input.refusal? : Input → Option StreamError
  | .response r _ => terminalOf r
  | _ => none

/-- Whenever the server answers with a terminal status, the call in progress
    returns exactly its error and no connection attempt is made any more. -/
def TerminalEnds (D : Deps) (s : Config) (inputs : List Input) : Prop :=
  ∀ before i after e, inputs = before ++ i :: after → i.terminal? = some e →
    ∀ u v t os₁ os₂ os₃, (grpc D).run s before = some (u, os₁) →
      (grpc D).step u i = some (v, os₂) → (grpc D).run v after = some (t, os₃) →
        Output.returned (some (.error e)) ∈ os₂ ∧ Output.attempt ∉ os₂ ++ os₃

/-- A result with a terminal status is an error of that class. -/
theorem terminalOf_eq_some {α : Type} (r : Except Status α) (e : StreamError)
    (h : terminalOf r = some e) : ∃ status, r = .error status ∧ classify status = .terminal e := by
  rcases r with status | a
  · refine ⟨status, rfl, ?_⟩
    rw [terminalOf] at h
    split at h
    · rename_i hc
      rw [hc, Option.some.inj h]
    · simp only [reduceCtorEq] at h
  · simp only [terminalOf, reduceCtorEq] at h

/-- A terminal status on the stream is returned and leaves the client
    finished. -/
theorem message_terminal (c : GrpcClient) (stable : Bool) (status : Status) (e : StreamError)
    (clock : Clock) (receivedAt : SystemTime) (h : classify status = .terminal e) :
    settle (c.onMessage stable (.error status) clock receivedAt)
      = (⟨{ c with state := .finished }, none⟩, [.returned (some (.error e))]) := by
  simp only [onMessage, h]
  exact enter_terminal { c with state := .terminal e } clock.first e rfl

/-- A refused re-subscription leaves a disconnected client: the call announces
    the next attempt and goes to sleep. -/
theorem refusal_sleeps (c : GrpcClient) (site : Site) (reqTx : Sender) (status : Status)
    (clock : Clock) (hc : Coherent ⟨c, some (.subscribe site reqTx)⟩) :
    ∃ c' notice delay, settle (c.onResponse site reqTx (.error status) clock)
      = (⟨c', some .sleep⟩, [.notice notice, .sleep delay]) := by
  cases site with
  | disconnected => exact ⟨_, _, _, enter_disconnected c clock.second hc⟩
  | dataLoss =>
      exact ⟨_, _, _, enter_disconnected { c with state := .disconnected } clock.second rfl⟩

/-- No attempt is among the outputs of a finished client. -/
theorem no_attempt_of_ended (D : Deps) (s t : Config) (inputs : List Input) (os : List Output)
    (hs : Ended s) (h : (grpc D).run s inputs = some (t, os)) : Output.attempt ∉ os := by
  intro ho
  rcases (ended_run D s t inputs os hs h).2 _ ho with heq | ⟨r, heq⟩
  · simp only [reduceCtorEq] at heq
  · simp only [reduceCtorEq] at heq

/-- The step that takes a terminal status from the stream. -/
theorem message_step (D : Deps) (u : Config) (q : Config × List Output) (e : StreamError)
    (r : Except Status (Option SubscribeBinaryTransactionsResponse)) (clock : Clock)
    (receivedAt : SystemTime) (he : terminalOf r = some e)
    (hm : Moves D u (.message r clock receivedAt) q) :
    q.2 = [.returned (some (.error e))] ∧ Ended q.1 := by
  rcases terminalOf_eq_some r e he with ⟨status, rfl, hclass⟩
  cases hm with
  | message c stable =>
      rw [message_terminal c stable status e clock receivedAt hclass]
      exact ⟨rfl, rfl, rfl⟩

/-- The step that takes an error status from a re-subscription returns
    nothing. -/
theorem refusal_step (D : Deps) (u : Config) (q : Config × List Output) (status : Status)
    (clock : Clock) (hcoh : Coherent u) (hm : Moves D u (.response (.error status) clock) q)
    (item : Item) : Output.returned item ∉ q.2 := by
  cases hm with
  | response c site reqTx =>
      rcases refusal_sleeps c site reqTx status clock hcoh with ⟨c', notice, delay, heq⟩
      rw [heq]
      simp only [List.mem_cons, reduceCtorEq, List.not_mem_nil, or_self, not_false_eq_true]

/-- A run treats every terminal status as the end of the stream exactly when
    none of its re-subscriptions is answered with one. -/
theorem terminalEnds_iff (D : Deps) (s t : Config) (inputs : List Input) (os : List Output)
    (hs : Connected D s) (hrun : (grpc D).run s inputs = some (t, os)) :
    TerminalEnds D s inputs ↔ ∀ i ∈ inputs, i.refusal? = none := by
  constructor
  · intro hends i hi
    -- Otherwise the refusal would have to be returned, and it is not.
    by_contra hne
    rcases Option.ne_none_iff_exists'.mp hne with ⟨e, he⟩
    rcases List.append_of_mem hi with ⟨before, after, rfl⟩
    rcases Machine.run_split (grpc D) s t before after i os hrun with
      ⟨u, v, os₁, os₂, os₃, h₁, h₂, h₃, _⟩
    have hcoh := coherent_run D s u before os₁ hs h₁
    have hm := (moves_iff D u i (v, os₂)).mp h₂
    rcases i with _ | _ | _ | ⟨r, clock⟩ | _ | _ | _ | _
    case response =>
      rcases terminalOf_eq_some r e he with ⟨status, rfl, _⟩
      have hmem := (hends before (.response (.error status) clock) after e rfl he
        u v t os₁ os₂ os₃ h₁ h₂ h₃).1
      exact refusal_step D u (v, os₂) status clock hcoh hm _ hmem
    all_goals simp only [Input.refusal?, reduceCtorEq] at he
  · intro hnone before i after e hinputs he u v t' os₁ os₂ os₃ h₁ h₂ h₃
    have hi : i ∈ inputs := by
      rw [hinputs]
      exact List.mem_append_right before List.mem_cons_self
    have hm := (moves_iff D u i (v, os₂)).mp h₂
    rcases i with _ | _ | _ | ⟨r, clock⟩ | ⟨r, clock, receivedAt⟩ | _ | _ | _
    case response =>
      -- The only other place a terminal status can arrive is excluded.
      have hno := hnone _ hi
      rw [Input.terminal?] at he
      rw [Input.refusal?, he] at hno
      cases hno
    case message =>
      rcases message_step D u (v, os₂) e r clock receivedAt he hm with ⟨hos, hended⟩
      simp only at hos
      rw [hos]
      refine ⟨List.mem_singleton_self _, ?_⟩
      simp only [List.singleton_append, List.mem_cons, reduceCtorEq, false_or]
      exact no_attempt_of_ended D v t' after os₃ hended h₃
    all_goals simp only [Input.terminal?, reduceCtorEq] at he

/-- The session is closed by the server while the client waits. -/
def kickedRun : List Input :=
  [.nextUpdate 0, .message (.error ⟨.permissionDenied, "kicked"⟩) ⟨0, 0⟩ 0, .nextUpdate 0]

theorem kickedRun_terminalEnds : TerminalEnds openDeps plainStart kickedRun := by
  refine (terminalEnds_iff openDeps plainStart _ kickedRun _ plainStart_connected rfl).mpr ?_
  intro i hi
  simp only [kickedRun, List.mem_cons, List.not_mem_nil, or_false] at hi
  rcases hi with rfl | rfl | rfl <;> rfl

/-- The stream ends, and the re-subscription is refused: the token has been
    revoked in the meantime. -/
def refusedRun : List Input :=
  [.nextUpdate 0, .message (.ok none) ⟨0, 0⟩ 0, .slept, .channel (.ok ()) 0,
    .response (.error ⟨.unauthenticated, "token revoked"⟩) ⟨0, 0⟩, .slept]

/-- The refused client returns nothing and attempts to connect again. -/
theorem refusedRun_attempts_again :
    ∃ u v t os₁ os₂ os₃,
      (grpc openDeps).run plainStart (refusedRun.take 4) = some (u, os₁) ∧
      (grpc openDeps).step u
        (.response (.error ⟨.unauthenticated, "token revoked"⟩) ⟨0, 0⟩) = some (v, os₂) ∧
      (grpc openDeps).run v [.slept] = some (t, os₃) ∧
      (∀ item, Output.returned item ∉ os₂ ++ os₃) ∧ Output.attempt ∈ os₃ ∧
      ¬ TerminalEnds openDeps plainStart refusedRun := by
  have hbefore : ∃ c reqTx os₁, (grpc openDeps).run plainStart (refusedRun.take 4)
      = some (⟨c, some (.subscribe .disconnected reqTx)⟩, os₁) ∧ c.state = .disconnected :=
    ⟨_, _, _, rfl, rfl⟩
  rcases hbefore with ⟨c, reqTx, os₁, hrun, hstate⟩
  rcases refusal_sleeps c .disconnected reqTx ⟨.unauthenticated, "token revoked"⟩ ⟨0, 0⟩ hstate
    with ⟨c', notice, delay, heq⟩
  have hstep : (grpc openDeps).step ⟨c, some (.subscribe .disconnected reqTx)⟩
      (.response (.error ⟨.unauthenticated, "token revoked"⟩) ⟨0, 0⟩)
        = some (⟨c', some .sleep⟩, [.notice notice, .sleep delay]) := congrArg some heq
  have hrest : (grpc openDeps).run ⟨c', some .sleep⟩ [.slept]
      = some (⟨c', some (.connect .disconnected)⟩, [.attempt]) := rfl
  refine ⟨_, _, _, _, _, _, hrun, hstep, hrest, ?_, List.mem_singleton_self _, ?_⟩
  · intro item hitem
    simp only [List.cons_append, List.nil_append, List.mem_cons, reduceCtorEq,
      List.not_mem_nil, or_self] at hitem
  · intro h
    have hno := (h (refusedRun.take 4)
      (.response (.error ⟨.unauthenticated, "token revoked"⟩) ⟨0, 0⟩) [.slept] .authRefused
      rfl rfl _ _ _ _ _ _ hrun hstep hrest).2
    exact hno (List.mem_append_right _ (List.mem_singleton_self _))

end Grpc

end ShredStream
