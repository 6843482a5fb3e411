import ShredStream.Theory.Grpc.Step

/-!
# Delivered as Received

The account of a gRPC client: what it took from its streams, what it handed
out, and what its counters say.

A response is taken when `stream.message()` is ready with it, which is an
input of the machine; a future dropped before that takes nothing. Whether a
taken response becomes an update is decided by the response alone (`image`),
and the stretch that takes it either returns the update or goes back to the
top of the loop. So nothing can come between taking and handing out, whatever
happens at the other await points.

## Main definitions

* `image`: The update a response stands for.
* `takenOf`, `subscribedOf`: What the inputs bring.
* `deliveredOf`, `reconnectedOf`: What the outputs report.
* `Tally`: The invariant.

## Theorems

* `toUpdate_image`: `to_update` computes the image and counts.
* `tally_step`: A step keeps the account.
* `delivered_as_received`: What holds of every run.
-/

namespace ShredStream

namespace Grpc

open GrpcClient Proto

/-- The update a response stands for: its transaction, when there is one and it
    has bytes. -/
def image (response : SubscribeBinaryTransactionsResponse) (receivedAt : SystemTime) :
    Option TransactionUpdate :=
  response.transaction.bind fun update => update.transaction.bind fun tx =>
    if tx.binaryTransaction = [] then none
    else some
      { slot := update.slot
        bytes := tx.binaryTransaction
        providedSignatures := tx.signatures
        filters := response.filters
        createdAt := response.createdAt.bind createdAt
        receivedAt := receivedAt }

/-- The responses taken from the streams, each with the time it was taken. -/
def takenOf (inputs : List Input) : List (SubscribeBinaryTransactionsResponse × SystemTime) :=
  inputs.filterMap (fun
    | .message (.ok (some response)) _ receivedAt => some (response, receivedAt)
    | _ => none)

/-- The number of subscriptions the server accepted. -/
def subscribedOf (inputs : List Input) : Nat :=
  inputs.countP (fun | .response (.ok _) _ => true | _ => false)

/-- The number of responses taken that stand for no update. -/
def skippedOf (inputs : List Input) : Nat :=
  (takenOf inputs).countP (fun r => (image r.1 r.2).isNone)

/-- The updates returned. -/
def deliveredOf (os : List Output) : List TransactionUpdate :=
  os.filterMap (fun | .returned (some (.ok u)) => some u | _ => none)

/-- The number of `Reconnected` notices fired. -/
def reconnectedOf (os : List Output) : Nat :=
  os.countP (fun | .notice .reconnected => true | _ => false)

/-- What was handed out is what was taken, and the counters say so. -/
structure Tally (inputs : List Input) (c : GrpcClient) (os : List Output) : Prop where
  delivered : deliveredOf os = (takenOf inputs).filterMap (fun r => image r.1 r.2)
  messages : c.stats.messages = UInt64.ofNat (deliveredOf os).length
  decodeErrors : c.stats.decodeErrors = UInt64.ofNat (skippedOf inputs)
  bytes : c.stats.bytes = UInt64.ofNat ((deliveredOf os).map (fun u => u.bytes.length)).sum
  lastSlot : c.stats.lastSlot = ((deliveredOf os).getLast?.map (fun u => u.slot)).getD 0
  reconnects : c.stats.reconnects = UInt64.ofNat (reconnectedOf os)
  announced : reconnectedOf os = subscribedOf inputs
  everConnected : c.everConnected = true

@[simp] theorem takenOf_append (is js : List Input) :
    takenOf (is ++ js) = takenOf is ++ takenOf js := List.filterMap_append

@[simp] theorem subscribedOf_append (is js : List Input) :
    subscribedOf (is ++ js) = subscribedOf is + subscribedOf js := List.countP_append

@[simp] theorem skippedOf_append (is js : List Input) :
    skippedOf (is ++ js) = skippedOf is + skippedOf js := by
  rw [skippedOf, takenOf_append, List.countP_append]
  rfl

@[simp] theorem deliveredOf_append (os new : List Output) :
    deliveredOf (os ++ new) = deliveredOf os ++ deliveredOf new := List.filterMap_append

@[simp] theorem reconnectedOf_append (os new : List Output) :
    reconnectedOf (os ++ new) = reconnectedOf os + reconnectedOf new := List.countP_append

/-- `to_update` computes the image, and counts it or its absence. -/
theorem toUpdate_image (c : GrpcClient) (receivedAt : SystemTime)
    (response : SubscribeBinaryTransactionsResponse) :
    c.toUpdate receivedAt response = match image response receivedAt with
      | some u =>
        ({ c with stats :=
            { c.stats with
              messages := c.stats.messages + 1
              bytes := c.stats.bytes + UInt64.ofNat u.bytes.length
              lastSlot := u.slot } }, some u)
      | none => (c.countDecodeError, none) := by
  unfold toUpdate image
  rcases response.transaction with _ | update
  · rfl
  rcases htx : update.transaction with _ | tx
  · simp only [Option.bind_some, htx, Option.bind_none]
  · by_cases hempty : tx.binaryTransaction = []
    · simp only [Option.bind_some, htx, hempty, if_true]
    · simp only [Option.bind_some, htx, hempty, if_false]

/-- The top of the loop hands out no update and announces no reconnection. -/
theorem enter_silent (c : GrpcClient) (now : Instant) :
    deliveredOf (settle (c.enter now)).2 = [] ∧ reconnectedOf (settle (c.enter now)).2 = 0 := by
  have hentered := entered_enter c now
  generalize settle (c.enter now) = q at hentered ⊢
  cases hentered with
  | finished | terminal | disconnected | connected => exact ⟨rfl, rfl⟩

/-- The account after an input, from what the input brings, what is handed out
    and announced, and what the counters gain. -/
theorem tally_add (inputs : List Input) (i : Input) (c c' : GrpcClient) (os new : List Output)
    (h : Tally inputs c os) (us : List TransactionUpdate) (skipped subscribed : Nat)
    (hdelivered : deliveredOf new = us)
    (htaken : (takenOf [i]).filterMap (fun r => image r.1 r.2) = us)
    (hskipped : skippedOf [i] = skipped) (hannounced : reconnectedOf new = subscribed)
    (hsubscribed : subscribedOf [i] = subscribed)
    (hmessages : c'.stats.messages = c.stats.messages + UInt64.ofNat us.length)
    (herrors : c'.stats.decodeErrors = c.stats.decodeErrors + UInt64.ofNat skipped)
    (hbytes : c'.stats.bytes
      = c.stats.bytes + UInt64.ofNat (us.map (fun u => u.bytes.length)).sum)
    (hslot : c'.stats.lastSlot = (us.getLast?.map (fun u => u.slot)).getD c.stats.lastSlot)
    (hreconnects : c'.stats.reconnects = c.stats.reconnects + UInt64.ofNat subscribed)
    (hever : c'.everConnected = true) : Tally (inputs ++ [i]) c' (os ++ new) := by
  refine ⟨?_, ?_, ?_, ?_, ?_, ?_, ?_, hever⟩
  · rw [deliveredOf_append, takenOf_append, List.filterMap_append, h.delivered, hdelivered, htaken]
  · rw [hmessages, h.messages, deliveredOf_append, hdelivered, List.length_append,
      UInt64.ofNat_add]
  · rw [herrors, h.decodeErrors, skippedOf_append, hskipped, UInt64.ofNat_add]
  · rw [hbytes, h.bytes, deliveredOf_append, hdelivered, List.map_append, List.sum_append,
      UInt64.ofNat_add]
  · rw [hslot, h.lastSlot, deliveredOf_append, hdelivered, List.getLast?_append]
    cases us.getLast? <;> rfl
  · rw [hreconnects, h.reconnects, reconnectedOf_append, hannounced, UInt64.ofNat_add]
  · rw [reconnectedOf_append, subscribedOf_append, h.announced, hannounced, hsubscribed]

/-- An input that takes nothing and a stretch that hands out nothing keep the
    account. -/
theorem tally_same (inputs : List Input) (i : Input) (c c' : GrpcClient) (os new : List Output)
    (h : Tally inputs c os) (hstats : c'.stats = c.stats)
    (hever : c'.everConnected = c.everConnected) (htaken : takenOf [i] = [])
    (hsubscribed : subscribedOf [i] = 0)
    (hnew : deliveredOf new = [] ∧ reconnectedOf new = 0) :
    Tally (inputs ++ [i]) c' (os ++ new) := by
  have hskipped : skippedOf [i] = 0 := by
    rw [skippedOf, htaken, List.countP_nil]
  have hadd : ∀ x : UInt64, x = x + UInt64.ofNat 0 := fun x => (UInt64.add_zero x).symm
  refine tally_add inputs i c c' os new h [] 0 0 hnew.1 ?_ hskipped hnew.2 hsubscribed ?_ ?_ ?_ ?_
    ?_ (hever.trans h.everConnected)
  · rw [htaken, List.filterMap_nil]
  · rw [hstats]
    exact hadd _
  · rw [hstats]
    exact hadd _
  · rw [hstats]
    exact hadd _
  · rw [hstats]
    rfl
  · rw [hstats]
    exact hadd _

/-- Taking a response keeps the account: an update is returned at once, and
    anything else is counted. -/
theorem tally_message (inputs : List Input) (c : GrpcClient) (os : List Output)
    (h : Tally inputs c os) (stable : Bool) (response : SubscribeBinaryTransactionsResponse)
    (clock : Clock) (receivedAt : SystemTime) :
    Tally (inputs ++ [.message (.ok (some response)) clock receivedAt])
      (settle (c.onMessage stable (.ok (some response)) clock receivedAt)).1.client
      (os ++ (settle (c.onMessage stable (.ok (some response)) clock receivedAt)).2) := by
  have htaken : takenOf [.message (.ok (some response)) clock receivedAt]
      = [(response, receivedAt)] := rfl
  have hadd : ∀ x : UInt64, x = x + UInt64.ofNat 0 := fun x => (UInt64.add_zero x).symm
  -- Resetting the attempt counter touches nothing the account is about.
  obtain ⟨c', hc', hreset⟩ : ∃ c', (if stable then { c with attempt := 0 } else c) = c' ∧
      Tally inputs c' os := by
    cases stable with
    | true => exact ⟨_, rfl, ⟨h.delivered, h.messages, h.decodeErrors, h.bytes, h.lastSlot,
        h.reconnects, h.announced, h.everConnected⟩⟩
    | false => exact ⟨_, rfl, h⟩
  simp only [onMessage, hc', toUpdate_image]
  cases hi : image response receivedAt with
  | some u =>
      -- Returned in the same stretch that took it.
      refine tally_add inputs _ c' _ os _ hreset [u] 0 0 rfl ?_ ?_ rfl rfl rfl (hadd _) ?_ rfl
        (hadd _) hreset.everConnected
      · rw [htaken, List.filterMap_cons, hi, List.filterMap_nil]
      · simp only [skippedOf, htaken, List.countP_singleton, hi, Option.isNone_some,
          Bool.false_eq_true, if_false]
      · rw [List.map_singleton, List.sum_singleton]
        rfl
  | none =>
      -- Counted, and the loop goes on.
      rcases enter_silent c'.countDecodeError clock.first with ⟨hnew, hquiet⟩
      have hstats := enter_stats c'.countDecodeError clock.first
      have hever := enter_everConnected c'.countDecodeError clock.first
      rw [← settle_client] at hstats hever
      refine tally_add inputs _ c' _ os _ hreset [] 1 0 hnew ?_ ?_ hquiet rfl ?_ ?_ ?_ ?_ ?_
        (hever.trans hreset.everConnected)
      · rw [htaken, List.filterMap_cons, hi, List.filterMap_nil]
      · simp only [skippedOf, htaken, List.countP_singleton, hi, Option.isNone_none, if_true]
      · rw [hstats]
        exact hadd _
      · rw [hstats]
        rfl
      · rw [hstats]
        exact hadd _
      · rw [hstats]
        rfl
      · rw [hstats]
        exact hadd _

/-- A subscription that is accepted is announced and counted. -/
theorem tally_subscribed (inputs : List Input) (c : GrpcClient) (os : List Output)
    (h : Tally inputs c os) (site : Site) (reqTx : Sender) (stream : StreamId) (clock : Clock) :
    Tally (inputs ++ [.response (.ok stream) clock])
      (settle (c.onResponse site reqTx (.ok stream) clock)).1.client
      (os ++ (settle (c.onResponse site reqTx (.ok stream) clock)).2) := by
  have hadd : ∀ x : UInt64, x = x + UInt64.ofNat 0 := fun x => (UInt64.add_zero x).symm
  have hsub : c.subscribed stream reqTx clock.first
      = ({ c with
            stats := { c.stats with reconnects := c.stats.reconnects + 1 }
            everConnected := true, state := .connected stream reqTx clock.first },
          [.notice .reconnected]) := by
    simp only [subscribed, h.everConnected, if_true]
  have hpost : (c.subscribed stream reqTx clock.first).1.everConnected = true := rfl
  -- The counter and the notice come before the loop is entered again.
  rw [onResponse_ok]
  rcases enter_silent (c.subscribed stream reqTx clock.first).1 clock.second with ⟨hnew, hquiet⟩
  have hstats := enter_stats (c.subscribed stream reqTx clock.first).1 clock.second
  have hever := enter_everConnected (c.subscribed stream reqTx clock.first).1 clock.second
  rw [← settle_client] at hstats hever
  refine tally_add inputs _ c _ os _ h [] 0 1 ?_ rfl rfl ?_ rfl ?_ ?_ ?_ ?_ ?_ (hever.trans hpost)
  · rw [deliveredOf_append, hnew, hsub]
    rfl
  · rw [reconnectedOf_append, hquiet, hsub]
    rfl
  · rw [hstats, hsub]
    exact hadd _
  · rw [hstats, hsub]
    exact hadd _
  · rw [hstats, hsub]
    exact hadd _
  · rw [hstats, hsub]
    rfl
  · rw [hstats, hsub]
    rfl

/-- `try_connect` returning an error hands out nothing. -/
theorem tally_refused (inputs : List Input) (i : Input) (c : GrpcClient) (os : List Output)
    (h : Tally inputs c os) (site : Site) (r : Except Status Unit) (now : Instant)
    (htaken : takenOf [i] = []) (hsubscribed : subscribedOf [i] = 0) :
    Tally (inputs ++ [i]) (settle (c.afterConnect site r now)).1.client
      (os ++ (settle (c.afterConnect site r now)).2) := by
  have hstats := afterConnect_stats c site r now
  have hever := afterConnect_everConnected c site r now
  rw [← settle_client] at hstats hever
  refine tally_same inputs i c _ os _ h hstats hever htaken hsubscribed ?_
  cases site <;> cases r
  case dataLoss.error e => exact enter_silent { c with state := .disconnected } now
  all_goals exact enter_silent c now

/-- The top of the loop, with the state and the data-loss clock changed before
    or not, hands out nothing. -/
theorem tally_enter (inputs : List Input) (i : Input) (c c' : GrpcClient) (os : List Output)
    (h : Tally inputs c os) (hstats : c'.stats = c.stats)
    (hever : c'.everConnected = c.everConnected) (now : Instant) (htaken : takenOf [i] = [])
    (hsubscribed : subscribedOf [i] = 0) :
    Tally (inputs ++ [i]) (settle (c'.enter now)).1.client (os ++ (settle (c'.enter now)).2) := by
  refine tally_same inputs i c _ os _ h ?_ ?_ htaken hsubscribed (enter_silent c' now)
  · rw [settle_client, enter_stats, hstats]
  · rw [settle_client, enter_everConnected, hever]

/-- A step keeps the account. -/
theorem tally_step (D : Deps) (inputs : List Input) (s : Config) (i : Input)
    (r : Config × List Output) (os : List Output) (h : Tally inputs s.client os)
    (hm : Moves D s i r) : Tally (inputs ++ [i]) r.1.client (os ++ r.2) := by
  cases hm with
  | nextUpdate c now => exact tally_enter inputs _ c c os h rfl rfl now rfl rfl
  | updateFilters c filters sent =>
      have hsame : (c.updateFilters D filters sent).1.stats = c.stats ∧
          (c.updateFilters D filters sent).1.everConnected = c.everConnected ∧
          deliveredOf (c.updateFilters D filters sent).2 = [] ∧
          reconnectedOf (c.updateFilters D filters sent).2 = 0 := by
        rcases updateFilters_cases D c filters sent with ⟨e, _, heq⟩ |
          ⟨_, stream, reqTx, since, _, heq⟩ | ⟨_, _, heq⟩
        · rw [heq]
          exact ⟨rfl, rfl, rfl, rfl⟩
        · rw [heq]
          cases sent <;> exact ⟨rfl, rfl, rfl, rfl⟩
        · rw [heq]
          exact ⟨rfl, rfl, rfl, rfl⟩
      exact tally_same inputs _ c _ os _ h hsame.1 hsame.2.1 rfl rfl hsame.2.2
  | close c => exact tally_same inputs _ c _ os _ h rfl rfl rfl rfl ⟨rfl, rfl⟩
  | slept c => exact tally_same inputs _ c _ os _ h rfl rfl rfl rfl ⟨rfl, rfl⟩
  | channel c site r now =>
      cases r with
      | error e => exact tally_refused inputs _ c os h site _ now rfl rfl
      | ok u => exact tally_same inputs _ c _ os _ h rfl rfl rfl rfl ⟨rfl, rfl⟩
  | response c site reqTx r clock =>
      cases r with
      | error status => exact tally_refused inputs _ c os h site _ clock.second rfl rfl
      | ok stream => exact tally_subscribed inputs c os h site reqTx stream clock
  | message c stable r clock receivedAt =>
      rcases r with status | _ | response
      · -- An error status may cost the connection, but no response.
        have hquiet : takenOf [.message (.error status) clock receivedAt] = [] := rfl
        have hnone : subscribedOf [.message (.error status) clock receivedAt] = 0 := rfl
        have hheard := heard_onMessage c stable (.error status) clock receivedAt
        generalize settle (c.onMessage stable (.error status) clock receivedAt) = q at hheard ⊢
        cases hheard with
        | terminal | recoverable | recent =>
            refine tally_enter inputs _ c _ os h ?_ ?_ _ hquiet hnone <;> rfl
        | immediate => exact tally_same inputs _ c _ os _ h rfl rfl hquiet hnone ⟨rfl, rfl⟩
      · exact tally_enter inputs (.message (.ok none) clock receivedAt) c
          { c with state := .disconnected } os h rfl rfl clock.first rfl rfl
      · exact tally_message inputs c os h stable response clock receivedAt
  | dropCall c await => exact tally_same inputs _ c _ os _ h rfl rfl rfl rfl ⟨rfl, rfl⟩

theorem tally_connected (D : Deps) (s : Config) (h : Connected D s) : Tally [] s.client [] := by
  rcases connected_client D s h with ⟨hstats, hever, _⟩
  refine ⟨rfl, ?_, ?_, ?_, ?_, ?_, rfl, hever⟩ <;>
    · rw [hstats]
      rfl

/-- Over every run of a connected client: the updates returned are the images
    of the responses taken, in order and each once; every other response taken
    is counted; and the counters and the notices add up. -/
theorem delivered_as_received (D : Deps) (s t : Config) (inputs : List Input) (os : List Output)
    (hs : Connected D s) (hrun : (grpc D).run s inputs = some (t, os)) :
    deliveredOf os = (takenOf inputs).filterMap (fun r => image r.1 r.2) ∧
      t.client.stats.messages = UInt64.ofNat (deliveredOf os).length ∧
      t.client.stats.decodeErrors = UInt64.ofNat (skippedOf inputs) ∧
      t.client.stats.bytes
        = UInt64.ofNat ((deliveredOf os).map (fun u => u.bytes.length)).sum ∧
      t.client.stats.lastSlot = ((deliveredOf os).getLast?.map (fun u => u.slot)).getD 0 ∧
      t.client.stats.reconnects = UInt64.ofNat (subscribedOf inputs) ∧
      reconnectedOf os = subscribedOf inputs := by
  have h := run_moves D (fun inputs u os => Tally inputs u.client os)
    (fun inputs u os i r hu hm => tally_step D inputs u i r os hu hm)
    s t inputs os (tally_connected D s hs) hrun
  exact ⟨h.delivered, h.messages, h.decodeErrors, h.bytes, h.lastSlot,
    h.announced ▸ h.reconnects, h.announced⟩

/-- A response with a transaction of one byte in slot 9. -/
def oneByteResponse : SubscribeBinaryTransactionsResponse where
  filters := ["all"]
  transaction := some ⟨some ⟨[], [5]⟩, 9⟩
  createdAt := none

/-- The stream ends, the client reconnects, skips an empty response, drops the
    call and takes a transaction with the next one. -/
def reconnectedRun : List Input :=
  [.nextUpdate 0, .message (.ok none) ⟨0, 0⟩ 0, .slept, .channel (.ok ()) 0,
    .response (.ok 1) ⟨0, 0⟩, .message (.ok (some ⟨[], none, none⟩)) ⟨0, 0⟩ 3, .dropCall,
    .nextUpdate 0, .message (.ok (some oneByteResponse)) ⟨0, 0⟩ 4]

/-- That run delivers the one transaction. -/
theorem reconnectedRun_delivers : ∃ t os,
    (grpc openDeps).run plainStart reconnectedRun = some (t, os) ∧
    deliveredOf os = [⟨9, [5], [], ["all"], none, 4⟩] ∧ t.client.stats.decodeErrors = 1 ∧
    t.client.stats.reconnects = 1 := by
  have hrun : ∃ t os, (grpc openDeps).run plainStart reconnectedRun = some (t, os) :=
    ⟨_, _, rfl⟩
  rcases hrun with ⟨t, os, hrun⟩
  rcases delivered_as_received openDeps plainStart t reconnectedRun os plainStart_connected hrun
    with ⟨hdelivered, _, herrors, _, _, hreconnects, _⟩
  exact ⟨t, os, hrun, hdelivered, herrors, hreconnects⟩

end Grpc

end ShredStream
