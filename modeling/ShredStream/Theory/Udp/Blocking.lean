import ShredStream.Theory.Udp.EndToEnd

/-!
# The Blocking Loop

`run_blocking` and `UdpClient` are two ways of receiving the same stream. The
loop has no queue, no second thread and no flag: it decodes and calls back,
one datagram after the other. The client decodes on its own thread, whatever
the consumer does meanwhile.

What they decode is the same. Fed what the socket of a client received in any
run, the loop calls back with what that client produced, in order and up to
the first call that breaks; and it returns when a call breaks, or with the
error of the socket.

## Main definitions

* `consume`: A callback fed with updates until it breaks.
* `socketOf`: What the socket of a client received, for the loop.
* `beforeFailure`: What was received before the socket failed.

## Theorems

* `receiveLoop_eq`: The loop decodes, and its callback consumes.
* `blocking_agrees`: The two ways of receiving agree.
* `gapRun_blocking`: A callback that breaks at the first update.
-/

namespace ShredStream

namespace Udp

open Codec StreamDecoder UdpClient BoundedFifo

variable {ε κ : Type}

/-- A callback that was fed with updates: its state, what it was called with,
    and whether the last call broke. -/
structure Consumed (κ : Type) where
  state : κ
  calls : List TransactionUpdate
  broke : Bool

/-- Call back with one update after the other, until a call breaks. -/
def consume (f : κ → TransactionUpdate → κ × ControlFlow) :
    κ → List TransactionUpdate → Consumed κ
  | k, [] => ⟨k, [], false⟩
  | k, u :: us => match f k u with
    | (k, .break) => ⟨k, [u], true⟩
    | (k, .continue) =>
      let rest := consume f k us
      { rest with calls := u :: rest.calls }

/-- The datagrams received before the socket failed, and the error. -/
def beforeFailure : List (Recv ε) → List Arrival × Option ε
  | [] => ([], none)
  | .failed e :: _ => ([], some e)
  | .datagram now bytes :: received =>
    (⟨now, bytes⟩ :: (beforeFailure received).1, (beforeFailure received).2)

/-- What the socket of a client received, for a loop that gets the error `e`
    where the client only sees that its socket has failed. -/
def socketOf (e : ε) (network : List Action) : List (Recv ε) :=
  network.filterMap (fun
    | .recv (.datagram now bytes) => some (.datagram now bytes)
    | .recv .failed => some (.failed e)
    | _ => none)

theorem socketOf_cons (e : ε) (a : Action) (network : List Action) :
    socketOf e (a :: network) = socketOf e [a] ++ socketOf e network := by
  rw [← List.singleton_append]
  exact List.filterMap_append

/-- A callback is called with what it is fed, up to a call that breaks. -/
theorem consume_calls (f : κ → TransactionUpdate → κ × ControlFlow)
    (us : List TransactionUpdate) : ∀ k : κ, (consume f k us).calls <+: us ∧
      ((consume f k us).broke = false → (consume f k us).calls = us) := by
  induction us with
  | nil =>
      intro k
      exact ⟨List.prefix_rfl, fun _ => rfl⟩
  | cons u us ih =>
      intro k
      rw [consume]
      rcases f k u with ⟨k', _ | _⟩
      · rcases ih k' with ⟨hfirst, hall⟩
        exact ⟨List.cons_prefix_cons.mpr ⟨rfl, hfirst⟩, fun hb => congrArg _ (hall hb)⟩
      · exact ⟨List.cons_prefix_cons.mpr ⟨rfl, List.nil_prefix⟩, fun hb => by cases hb⟩

/-- The loop decodes what is received before the socket fails, and its callback
    consumes the updates. -/
theorem receiveLoop_eq (f : κ → TransactionUpdate → κ × ControlFlow) (received : List (Recv ε)) :
    ∀ (d : StreamDecoder) (k : κ),
      let c := consume f k (updatesOf (d.pushes (handedOver (beforeFailure received).1)))
      receiveLoop f d k received = ⟨c.state, c.calls,
        if c.broke then some (.ok ()) else (beforeFailure received).2.map .error⟩ := by
  induction received with
  | nil =>
      intro d k
      rfl
  | cons r received ih =>
      intro d k
      cases r with
      | failed e => rfl
      | datagram now bytes =>
          simp only [beforeFailure, handedOver, List.map_cons, pushes] at ih ⊢
          rw [updatesOf_cons, updatesOf_singleton, receiveLoop]
          cases hres : (d.push now (recvInto bytes)).result with
          | update u =>
              simp only [List.singleton_append, consume]
              rcases f k u with ⟨k', _ | _⟩
              · simp only [ih]
                rfl
              · rfl
          | skipped | error e => exact ih (d.push now (recvInto bytes)).decoder k

/-! ### The thread of a client -/

/-- A socket that fails takes the thread out of its loop. -/
theorem leaving_failed (s s' : UdpClient) (os : List Output)
    (h : udp.step s (.recv .failed) = some (s', os)) : s'.thread.Leaving := by
  have hm := moves_of_step s _ (s', os) h
  cases hm with
  | failed _ => exact trivial

/-- What the socket received before it failed is all the client decodes. -/
theorem beforeFailure_socketOf (e : ε) (network : List Action) : ∀ (s t : UdpClient)
    (os : List Output), udp.run s (network.map Action.cut) = some (t, os) →
      beforeFailure (socketOf e network) = (arrivalsOf network,
        if .recv .failed ∈ network then some e else none) := by
  induction network with
  | nil =>
      intro s t os _
      rfl
  | cons a network ih =>
      intro s t os h
      rw [List.map_cons] at h
      rcases Machine.run_cons udp s t _ _ os h with ⟨s', os₁, os₂, hstep, hrest, _⟩
      have hih := ih s' t os₂ hrest
      rw [socketOf_cons, arrivalsOf_cons]
      rcases a with (⟨now, bytes⟩ | _ | _) | _ | _ | _ | _
      case recv.failed =>
        -- Nothing is received any more.
        have hnone := (leaving_run s' t _ os₂ (leaving_failed s s' os₁ hstep) hrest).2.2
        have hnil : arrivalsOf network = [] := by
          rw [arrivalsOf, List.filterMap_eq_nil_iff]
          intro b hb
          rcases b with (⟨now, bytes⟩ | _ | _) | _ | _ | _ | _
          · exact absurd (List.mem_map.mpr ⟨_, hb, rfl⟩) (hnone (.datagram now (recvInto bytes)))
          all_goals rfl
        rw [hnil, if_pos List.mem_cons_self]
        rfl
      case recv.datagram =>
        change (_ :: (beforeFailure (socketOf e network)).1,
          (beforeFailure (socketOf e network)).2) = _
        simp only [hih, List.mem_cons, reduceCtorEq, false_or, Action.recv.injEq]
        rfl
      all_goals
        change beforeFailure (socketOf e network) = (arrivalsOf network, _)
        simp only [hih, List.mem_cons, reduceCtorEq, false_or, Action.recv.injEq]

/-- The loop agrees with the client, in every run of the client and whatever
    its consumer does: fed what the client's socket receives, the callback is
    called with what the client produces, in order and up to the call that
    breaks, and the loop returns when a call breaks or when the socket fails. -/
theorem blocking_agrees (calls : SocketCalls ε) (cfg : UdpConfig) (b : Bound)
    (hb : bindOn calls cfg = .ok b) (f : κ → TransactionUpdate → κ × ControlFlow) (k : κ) (e : ε)
    (network : List Action) (t : UdpClient) (os : List Output)
    (h : udp.run b.client (network.map Action.cut) = some (t, os)) :
    let r := runBlocking calls cfg f k (socketOf e network)
    let c := consume f k (producedOf os)
    r.state = c.state ∧ r.calls = c.calls ∧ r.calls <+: producedOf os ∧
      (c.broke = false → r.calls = producedOf os) ∧
      r.result = if c.broke then some (.ok ())
        else if .recv .failed ∈ network then some (.error e) else none := by
  intro r c
  rcases bindOn_ok calls cfg b hb with ⟨stats, hsocket, _⟩
  rcases bindOn_run calls cfg b hb _ t os h with ⟨y, hrun⟩
  have hproduced := (decoded_run cfg.queueCapacity _ _ os hrun).1
  rw [arrivalsOf_cut] at hproduced
  have hr : r = ⟨c.state, c.calls, if c.broke then some (.ok ())
      else if .recv .failed ∈ network then some (.error e) else none⟩ := by
    have hloop := receiveLoop_eq f (socketOf e network) new k
    rw [beforeFailure_socketOf e network _ t os h] at hloop
    simp only [r, c, runBlocking, hsocket, hproduced, hloop]
    congr 2
    split <;> rfl
  rcases consume_calls f (producedOf os) k with ⟨hfirst, hall⟩
  rw [hr]
  exact ⟨rfl, rfl, hfirst, hall, rfl⟩

/-- A system that grants half of the receive buffer asked for. -/
def clampingCalls : SocketCalls String where
  new := fun _ => .ok ()
  setRecvBufferSize := fun _ => .ok ()
  bind := fun _ => .ok ()
  recvBufferSize := .ok (64 <<< 20)
  setReadTimeout := fun _ => .ok ()
  localAddr := .ok ⟨.v4 0, 8002⟩
  linux := true

/-- On the datagrams of `gapRun` the callback is called once, and the loop
    returns because it breaks. -/
theorem gapRun_blocking :
    (runBlocking clampingCalls {} (fun n u => (n + u.slot, .break)) 1
      (socketOf "" gapRun)).result = some (.ok ()) := by
  have hrun := blocking_agrees clampingCalls {} ⟨_, _, _⟩ rfl
    (fun (n : UInt64) u => (n + u.slot, .break)) 1 "" gapRun _ _ rfl
  exact hrun.2.2.2.2

end Udp

end ShredStream
