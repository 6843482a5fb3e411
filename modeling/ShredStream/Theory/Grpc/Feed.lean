import ShredStream.Lib.Feed
import ShredStream.Lib.Simulation
import ShredStream.Theory.Grpc.Step

/-!
# The gRPC Client Is a Feed

Connections, backoffs, timers and futures that are dropped, against a line
with a source at one end and a user at the other. The line is always empty
between steps: a response that carries an update is put and taken at once, by
the call that waits for it. The source fails with the error of a terminal
status, and is over when that error has been told or the client was closed.

Nothing else a client does is seen: that it lost its connection, slept and
came back is not an event of the feed.

## Main definitions

* `seen`: What of an output a user of the feed sees.
* `phaseOf`: How the source stands.
* `mirror`: The feed that stands as the client does.

## Theorems

* `mirror_enter`: What the top of the loop tells.
* `mirror_step`: Every step is an operation of the feed, or two, or none.
* `grpc_simulates`: The client simulates the feed.
* `grpc_feed`: Every run is a run of the feed, and keeps its contract.
-/

namespace ShredStream

namespace Grpc

open GrpcClient Proto BoundedFifo Feed

/-- What of an output a user of the feed sees. -/
def seen : Output → List (Event TransactionUpdate StreamError)
  | .returned (some (.ok u)) => [.put u, .got u]
  | .returned (some (.error e)) => [.failed e]
  | .returned none => [.ended]
  | _ => []

/-- How the source stands, by the state of the client. -/
def phaseOf : State → Phase StreamError
  | .disconnected | .connected .. => .flowing
  | .terminal e => .failed e
  | .finished => .ended

/-- The feed that stands as the client does. -/
def mirror (capacity : Nat) (c : GrpcClient) : Feed.State TransactionUpdate StreamError where
  capacity := capacity
  line := []
  phase := phaseOf c.state

variable (capacity : Nat)

/-- The feed does nothing. -/
theorem mirror_silent (c c' : GrpcClient) (hc : phaseOf c'.state = phaseOf c.state) :
    ∃ ops, feed.run (mirror capacity c) ops = some (mirror capacity c', []) := by
  refine ⟨[], ?_⟩
  rw [mirror, mirror, hc]
  rfl

/-- The feed does one thing. -/
theorem mirror_one (f : Feed.State TransactionUpdate StreamError) (c' : GrpcClient)
    (es : List (Event TransactionUpdate StreamError)) (op : Op TransactionUpdate StreamError)
    (h : feed.step f op = some (mirror capacity c', es)) :
    ∃ ops, feed.run f ops = some (mirror capacity c', es) :=
  ⟨[op], Machine.run_singleton feed _ _ op _ h⟩

/-- The top of the loop tells the error of a client that has failed, or that a
    finished client is over. -/
theorem mirror_enter (c : GrpcClient) (now : Instant) :
    ∃ ops, feed.run (mirror capacity c) ops
      = some (mirror capacity (settle (c.enter now)).1.client,
        (settle (c.enter now)).2.flatMap seen) := by
  have hentered := entered_enter c now
  generalize settle (c.enter now) = q at hentered ⊢
  cases hentered with
  | finished h =>
      refine mirror_one capacity _ _ _ .ask ?_
      simp only [mirror, h, phaseOf, feed]
      rfl
  | terminal e h =>
      refine mirror_one capacity _ _ _ .ask ?_
      simp only [mirror, h, phaseOf, feed]
      rfl
  | disconnected h | connected stream reqTx since h => exact mirror_silent capacity _ _ rfl

/-- The same, from a client that stands differently but whose feed stands the
    same. -/
theorem mirror_enter_of (c c' : GrpcClient) (now : Instant)
    (h : phaseOf c'.state = phaseOf c.state) :
    ∃ ops, feed.run (mirror capacity c) ops
      = some (mirror capacity (settle (c'.enter now)).1.client,
        (settle (c'.enter now)).2.flatMap seen) := by
  have hmirror : mirror capacity c = mirror capacity c' := by rw [mirror, mirror, h]
  rw [hmirror]
  exact mirror_enter capacity c' now

/-- A client whose call goes to the top of the loop after a failed attempt had
    a source that flows, and still has. -/
theorem mirror_afterConnect (c : GrpcClient) (site : Site) (r : Except Status Unit)
    (now : Instant) (h : phaseOf c.state = .flowing) :
    ∃ ops, feed.run (mirror capacity c) ops
      = some (mirror capacity (settle (c.afterConnect site r now)).1.client,
        (settle (c.afterConnect site r now)).2.flatMap seen) := by
  cases site <;> cases r
  case dataLoss.error e =>
      exact mirror_enter_of capacity c { c with state := .disconnected } now h.symm
  all_goals exact mirror_enter capacity c now

/-- The source of a client that waits for something flows. -/
theorem flowing_of_call (s : Config) (await : Await) (h : Coherent s)
    (hcall : s.call = some await) :
    phaseOf s.client.state = .flowing := by
  rw [Coherent, hcall] at h
  have hconnected : (∃ stream reqTx since, s.client.state = .connected stream reqTx since) →
      phaseOf s.client.state = .flowing := by
    rintro ⟨stream, reqTx, since, hstate⟩
    rw [hstate]
    rfl
  have hdisconnected : s.client.state = .disconnected → phaseOf s.client.state = .flowing := by
    intro hstate
    rw [hstate]
    rfl
  cases await with
  | sleep => exact hdisconnected h
  | connect site | subscribe site _ =>
      cases site with
      | disconnected => exact hdisconnected h
      | dataLoss => exact hconnected h
  | message stable => exact hconnected h

/-- What a message does: an update is put and taken, a terminal status fails
    the source and is told at once, and everything else is not seen. -/
theorem mirror_message (hcap : 1 ≤ capacity) (c : GrpcClient) (stable : Bool)
    (r : Except Status (Option SubscribeBinaryTransactionsResponse)) (clock : Clock)
    (receivedAt : SystemTime) (h : phaseOf c.state = .flowing) :
    ∃ ops, feed.run (mirror capacity c) ops
      = some (mirror capacity (settle (c.onMessage stable r clock receivedAt)).1.client,
        (settle (c.onMessage stable r clock receivedAt)).2.flatMap seen) := by
  have hflowing : mirror capacity c = new capacity := by
    rw [mirror, h]
    rfl
  have hheard := heard_onMessage c stable r clock receivedAt
  generalize settle (c.onMessage stable r clock receivedAt) = q at hheard ⊢
  cases hheard with
  | terminal status e _ =>
      -- Failing is not seen; the top of the loop tells it.
      rcases mirror_enter capacity { c with state := .terminal e } clock.first with ⟨ops, hrun⟩
      refine ⟨.fail e :: ops, ?_⟩
      rw [hflowing, Machine.run_cons_of_step feed (new capacity)
        (mirror capacity { c with state := .terminal e }) (.fail e) ops [] rfl, hrun]
      rfl
  | recoverable | ended | recent => exact mirror_enter_of capacity c _ _ h.symm
  | skipped => exact mirror_enter_of capacity c _ _ rfl
  | immediate => exact mirror_silent capacity _ _ rfl
  | returned response stats update =>
      refine ⟨[.put update, .take], ?_⟩
      rw [hflowing, put_take capacity hcap update, ← hflowing]
      rfl

/-- Every step is an operation of the feed, or two, or none. -/
theorem mirror_step (hcap : 1 ≤ capacity) (D : Deps) (s : Config) (i : Input)
    (r : Config × List Output) (h : Coherent s) (hm : Moves D s i r) :
    ∃ ops, feed.run (mirror capacity s.client) ops
      = some (mirror capacity r.1.client, r.2.flatMap seen) := by
  cases hm with
  | nextUpdate c now => exact mirror_enter capacity c now
  | updateFilters c filters sent =>
      rcases updateFilters_cases D c filters sent with ⟨e, _, heq⟩ |
        ⟨_, stream, reqTx, since, hstate, heq⟩ | ⟨_, _, heq⟩ <;> rw [heq]
      · exact mirror_silent capacity _ _ rfl
      · have hphase : phaseOf (.connected stream (reqTx.send (filtersToProto filters) sent) since)
            = phaseOf c.state := by
          rw [hstate]
          rfl
        split <;> exact mirror_silent capacity _ _ hphase
      · exact mirror_silent capacity _ _ rfl
  | close c => exact mirror_one capacity _ _ _ .finish rfl
  | slept c => exact mirror_silent capacity _ _ rfl
  | channel c site r now =>
      have hflowing := flowing_of_call _ _ h rfl
      cases r with
      | error e => exact mirror_afterConnect capacity c site _ now hflowing
      | ok u => exact mirror_silent capacity _ _ rfl
  | response c site reqTx r clock =>
      have hflowing := flowing_of_call _ _ h rfl
      cases r with
      | error status => exact mirror_afterConnect capacity c site _ _ hflowing
      | ok stream =>
          rw [onResponse_ok]
          have hnotices : (c.subscribed stream reqTx clock.first).2.flatMap seen = [] := by
            unfold subscribed
            cases c.everConnected <;> rfl
          rw [List.flatMap_append, hnotices, List.nil_append]
          exact mirror_enter_of capacity c _ _ hflowing.symm
  | message c stable r clock receivedAt =>
      exact mirror_message capacity hcap c stable r clock receivedAt (flowing_of_call _ _ h rfl)
  | dropCall c await => exact mirror_silent capacity _ _ rfl

/-- The client simulates the feed, of any capacity. -/
theorem grpc_simulates (hcap : 1 ≤ capacity) (D : Deps) : Machine.Simulates (grpc D) feed seen
    (fun s f => Coherent s ∧ f = mirror capacity s.client) := by
  rintro s f i s' os ⟨hs, rfl⟩ hstep
  have hm := (moves_iff D s i (s', os)).mp hstep
  rcases mirror_step capacity hcap D s i (s', os) hs hm with ⟨ops, hrun⟩
  exact ⟨ops, mirror capacity s'.client, hrun, coherent_step D s i (s', os) hs hm, rfl⟩

/-- Nothing is ever lost on the way. -/
theorem lostOf_seen (os : List Output) : lostOf (os.flatMap seen) = [] := by
  induction os with
  | nil => rfl
  | cons o os ih =>
      rw [List.flatMap_cons, lostOf_append, ih, List.append_nil]
      unfold seen
      split <;> rfl

/-- Every run of a connected client, over all its connections, is a run of the
    feed that loses nothing, of whatever capacity. So the user may rely on the
    contract of a feed. -/
theorem grpc_feed (hcap : 1 ≤ capacity) (D : Deps) (s t : Config) (inputs : List Input)
    (os : List Output) (hs : Connected D s) (h : (grpc D).run s inputs = some (t, os)) :
    (∃ ops, feed.run (new capacity) ops
      = some (mirror capacity t.client, os.flatMap seen)) ∧
      lostOf (os.flatMap seen) = [] ∧ Contract (os.flatMap seen) := by
  rcases connected_client D s hs with ⟨_, _, hcall, _, stream, since, hstate⟩
  have h0 : mirror capacity s.client = new capacity := by
    rw [mirror, hstate]
    rfl
  have hcoherent : Coherent s := by
    rw [Coherent, hcall]
    trivial
  rcases (grpc_simulates capacity hcap D).run inputs s t _ os ⟨hcoherent, rfl⟩ h with
    ⟨ops, f, hrun, _, rfl⟩
  rw [h0] at hrun
  exact ⟨⟨ops, hrun⟩, lostOf_seen os, contract_run _ ops _ _ hrun⟩

/-- One update is received, then the operator kicks the client, which is told
    so by one call and finds the stream over in the next. -/
def servedRun : List Input :=
  [.nextUpdate 0,
    .message (.ok (some
      { filters := [], createdAt := none, transaction := some
          { slot := 7, transaction := some { signatures := [], binaryTransaction := [1] } } }))
      ⟨0, 0⟩ 0,
    .nextUpdate 0, .message (.error ⟨.permissionDenied, "kicked"⟩) ⟨0, 0⟩ 0, .nextUpdate 0]

/-- What is seen of that run. -/
theorem servedRun_feed : ∃ t os u, (grpc openDeps).run plainStart servedRun = some (t, os) ∧
    os.flatMap seen = [.put u, .got u, .failed .kicked, .ended] ∧ Contract (os.flatMap seen) :=
  ⟨_, _, _, rfl, rfl,
    (grpc_feed 1 (Nat.le_refl 1) openDeps plainStart _ servedRun _ plainStart_connected rfl).2.2⟩

end Grpc

end ShredStream
