import ShredStream.Theory.Frame.Lossy
import ShredStream.Theory.Udp.Opened

/-!
# From the Sender to the Consumer

The whole way of a transaction: a sender cuts it into datagrams, a network
loses some of them and mixes others in, the socket cuts what is too long for
its buffer, the receive thread decodes, the queue evicts, and a consumer takes
out what is left, while the two of them run in any order.

Each stage has its own account, and here they are put together. What the
thread produces depends on the datagrams alone, whatever the consumer does in
between (`decoded_run`). Which transactions that makes is known from the
sender (`transactions_lossy`), since a sender that respects the limit on datagrams is
never cut. And what becomes of them is the account of the queue.

## Main definitions

* `Action.cut`: A datagram as the socket hands it over.
* `arrivalsOf`: The datagrams decoded in a run.

## Theorems

* `noise_recvInto`: Cutting does not make a fragment of what is none.
* `decoded_run`: What is produced is what a decoder makes of the datagrams.
* `udp_end_to_end`: The account of the transactions that were sent.
* `gapRun_account`: A run that loses one of two.
-/

namespace ShredStream

namespace Udp

open Codec StreamDecoder UdpClient BoundedFifo

/-- A datagram of the network, as the socket hands it over. -/
def Action.cut : Action → Action
  | .recv (.datagram now bytes) => .recv (.datagram now (recvInto bytes))
  | a => a

/-- The datagrams among the actions, in order of arrival. -/
def arrivalsOf (inputs : List Action) : List Arrival :=
  inputs.filterMap (fun
    | .recv (.datagram now bytes) => some ⟨now, bytes⟩
    | _ => none)

/-- The arrivals as the socket hands them over. -/
def handedOver (arrivals : List Arrival) : List Arrival :=
  arrivals.map (fun a => ⟨a.now, recvInto a.datagram⟩)

theorem arrivalsOf_cons (a : Action) (inputs : List Action) :
    arrivalsOf (a :: inputs) = arrivalsOf [a] ++ arrivalsOf inputs := by
  rw [← List.singleton_append]
  exact List.filterMap_append

/-! ### The receive buffer -/

theorem recvInto_of_small (d : Bytes) (h : d.length ≤ maxDatagram) : recvInto d = d :=
  List.take_of_length_le (Nat.le_add_right_of_le h)

/-- The header is in the part that is kept. -/
theorem parseHeader_recvInto (d : Bytes) : parseHeader (recvInto d) = parseHeader d := by
  have hget : ∀ i < 16, (recvInto d).getD i 0 = d.getD i 0 := by
    intro i hi
    rw [List.getD_eq_getElem?_getD, List.getD_eq_getElem?_getD, recvInto,
      List.getElem?_take_of_lt (by rw [maxDatagram]; omega)]
  have htake : (recvInto d).take 2 = d.take 2 := by
    rw [recvInto, List.take_take, Nat.min_eq_left (by decide)]
  have hseq : ((recvInto d).drop 8).take 8 = (d.drop 8).take 8 := by
    rw [recvInto, List.drop_take, List.take_take, Nat.min_eq_left (by decide)]
  have hshort : (recvInto d).length < frameHeaderLen ↔ d.length < frameHeaderLen := by
    rw [recvInto, List.length_take, frameHeaderLen, maxDatagram]
    omega
  simp only [parseHeader, hshort, htake, hseq, hget 2 (by decide), hget 3 (by decide),
    hget 4 (by decide), hget 5 (by decide), hget 6 (by decide)]

theorem noise_recvInto (d : Bytes) : Noise (recvInto d) ↔ Noise d := by
  rw [Noise, Noise, parseHeader_recvInto]

theorem arrivalsOf_cut (network : List Action) :
    arrivalsOf (network.map Action.cut) = handedOver (arrivalsOf network) := by
  induction network with
  | nil => rfl
  | cons a network ih =>
      rw [List.map_cons, arrivalsOf_cons, arrivalsOf_cons a, handedOver, List.map_append, ih]
      rcases a with (⟨now, bytes⟩ | _ | _) | _ | _ | _ | _ <;> rfl

theorem datagrams_handedOver (arrivals : List Arrival) :
    (handedOver arrivals).map (fun a => a.datagram)
      = (arrivals.map (fun a => a.datagram)).map recvInto := by
  simp only [handedOver, List.map_map, Function.comp_def]

/-- Of fragments that respect the limit nothing is cut off. -/
theorem fragments_recvInto (datagrams : List Bytes)
    (hsmall : ∀ d ∈ fragments datagrams, d.length ≤ maxDatagram) :
    fragments (datagrams.map recvInto) = fragments datagrams := by
  have hcut : fragments (datagrams.map recvInto) = (fragments datagrams).map recvInto := by
    rw [fragments, fragments, List.filter_map]
    simp only [Function.comp_def, noise_recvInto]
  rw [hcut]
  exact (List.map_congr_left (fun d hd => recvInto_of_small d (hsmall d hd))).trans (List.map_id _)

/-! ### What the thread produces -/

/-- A decoder is at the same fragment set as the thread's. -/
theorem push_produced (s : UdpClient) (now : SystemTime) (bytes : Bytes) :
    producedOf (s.decode now bytes).2 = updatesOf [s.decoder.push now bytes] ∧
      (s.decode now bytes).1.decoder = (s.decoder.push now bytes).decoder := by
  have hnotices := (reports_notices (s.decoder.push now bytes).notices).1
  rcases decode_cases s now bytes with ⟨u, hres, hd⟩ | ⟨hres, hd⟩ <;> rw [hd]
  · refine ⟨?_, rfl⟩
    rw [producedOf_append, hnotices, updatesOf_singleton, hres]
    rfl
  · refine ⟨?_, rfl⟩
    rw [hnotices, updatesOf_singleton]
    cases hpush : (s.decoder.push now bytes).result with
    | update u =>
        rw [hpush] at hres
        cases hres
    | skipped | error e => rfl

/-- Only a step that decodes consumes a datagram. -/
theorem arrivalsOf_quiet (s : UdpClient) (a : Action) (r : UdpClient × List Output)
    (h : Quiet s a r) : arrivalsOf [a] = [] := by
  rcases a with (⟨now, bytes⟩ | _ | _) | _ | _ | _ | _
  · exact absurd rfl (h.input now bytes)
  all_goals rfl

/-- What is produced in a run, and the fragment set the thread is left with,
    are those of a decoder that is fed the same datagrams. -/
theorem decoded_run (queueCapacity : Nat) (inputs : List Action) (t : UdpClient)
    (os : List Output) (h : udp.run (bind queueCapacity) inputs = some (t, os)) :
    producedOf os = updatesOf (new.pushes (arrivalsOf inputs)) ∧
      t.decoder.reasm = (new.pushAll (arrivalsOf inputs)).reasm := by
  refine run_moves (fun inputs s os => producedOf os = updatesOf (new.pushes (arrivalsOf inputs)) ∧
    s.decoder.reasm = (new.pushAll (arrivalsOf inputs)).reasm) ?_ (bind queueCapacity) t inputs os
    ⟨rfl, rfl⟩ h
  rintro before s os a r ⟨hproduced, hreasm⟩ hm
  have happend : arrivalsOf (before ++ [a]) = arrivalsOf before ++ arrivalsOf [a] :=
    List.filterMap_append
  rw [happend, producedOf_append, hproduced]
  rcases decodes_or_quiet s a r hm with ⟨now, bytes, rfl, rfl⟩ | hquiet
  · -- The counters of the two decoders differ, but not what they do.
    rcases push_produced s now bytes with ⟨hnew, hdecoder⟩
    rcases push_congr s.decoder (new.pushAll (arrivalsOf before)) now bytes hreasm with
      ⟨hresult, hnext⟩
    have hone : arrivalsOf [.recv (.datagram now bytes)] = [⟨now, bytes⟩] := rfl
    rw [hone, pushes_append_singleton, pushAll_append_singleton, updatesOf_append, hnew, hdecoder]
    refine ⟨?_, hnext⟩
    rw [updatesOf_singleton, updatesOf_singleton, hresult]
  · rw [arrivalsOf_quiet s a r hquiet, List.append_nil, hquiet.produced, List.append_nil]
    exact ⟨rfl, hquiet.reasm.trans hreasm⟩

/-- The decoder makes of the datagrams as they are handed over what it makes of
    the stream. -/
theorem transactions_cut (sent : Sent) (hsmall : ∀ d ∈ sent.datagrams, d.length ≤ maxDatagram)
    (network : List Action)
    (hnet : (fragments ((arrivalsOf network).map (fun a => a.datagram))).Sublist sent.datagrams) :
    (updatesOf (new.pushes (arrivalsOf (network.map Action.cut)))).map transactionOf
      = (sent.transmissions.filter (fun transmission =>
          transmission.Survives sent ((arrivalsOf network).map (fun a => a.datagram)))).map
            (fun transmission => transmission.tx) := by
  have hcut := fragments_recvInto ((arrivalsOf network).map (fun a => a.datagram))
    (fun d hd => hsmall d (hnet.subset hd))
  rw [arrivalsOf_cut, transactions_lossy sent _ (by rw [datagrams_handedOver, hcut]; exact hnet),
    datagrams_handedOver]
  refine congrArg _ (List.filter_congr (fun transmission ht => decide_eq_decide.mpr ?_))
  -- A fragment arrives exactly when it is handed over.
  refine and_congr_left (fun _ => forall₂_congr (fun d hd => ?_))
  have hn := sent.not_noise transmission ht d hd
  have hmem : d ∈ fragments (((arrivalsOf network).map (fun a => a.datagram)).map recvInto) ↔
      d ∈ fragments ((arrivalsOf network).map (fun a => a.datagram)) := by rw [hcut]
  simpa only [mem_fragments, hn, not_false_eq_true, and_true] using hmem

/-- What was produced is received, evicted, queued, or in the thread's hand. -/
theorem ledger_run (queueCapacity : Nat) (inputs : List Action) (t : UdpClient)
    (os : List Output) (h : udp.run (bind queueCapacity) inputs = some (t, os)) :
    Ledger (producedOf os) (receivedOf os) (evictedOf os) (t.queue ++ t.thread.inHand) := by
  have ha := account_run queueCapacity inputs t os h
  rw [ha.produced]
  exact ledger_append _ _ _ _ t.thread.inHand ha.ledger

/-- What becomes of the transactions that were sent. Those that survive are
    produced and counted, in the order in which they were sent; of these the
    first ones are gone, each of them received or evicted, in order, and the
    others are queued or about to be. Without evictions nothing that survives
    is missing. -/
theorem udp_end_to_end (sent : Sent) (hsmall : ∀ d ∈ sent.datagrams, d.length ≤ maxDatagram)
    (queueCapacity : Nat) (network : List Action) (t : UdpClient) (os : List Output)
    (hnet : (fragments ((arrivalsOf network).map (fun a => a.datagram))).Sublist sent.datagrams)
    (h : udp.run (bind queueCapacity) (network.map Action.cut) = some (t, os)) :
    let survivors := (sent.transmissions.filter (fun transmission =>
      transmission.Survives sent ((arrivalsOf network).map (fun a => a.datagram)))).map
        (fun transmission => transmission.tx)
    Ledger survivors ((receivedOf os).map transactionOf) ((evictedOf os).map transactionOf)
      ((t.queue ++ t.thread.inHand).map transactionOf) ∧
    t.decoder.stats.messages = UInt64.ofNat survivors.length ∧
    (evictedOf os = [] →
      survivors = (receivedOf os ++ t.queue ++ t.thread.inHand).map transactionOf) := by
  intro survivors
  have hproduced : (producedOf os).map transactionOf = survivors := by
    rw [(decoded_run queueCapacity _ t os h).1]
    exact transactions_cut sent hsmall network hnet
  have hledger := ledger_map transactionOf _ _ _ _ (ledger_run queueCapacity _ t os h)
  rw [hproduced] at hledger
  refine ⟨hledger, ?_, fun hnone => ?_⟩
  · rw [(account_run queueCapacity _ t os h).messages, ← hproduced, List.length_map]
  · rw [hnone] at hledger
    rw [ledger_lossless _ _ _ hledger, ← List.map_append, List.append_assoc]

/-- A client that gets one fragment of two, a stray datagram and a whole
    transaction, which the consumer takes. -/
def gapRun : List Action :=
  [.thread, .recv (.datagram 0 (frame msgTransaction 1 2 1 [0, 0, 0, 0, 0, 42])), .thread,
   .recv (.datagram 1 [1, 2, 3]), .thread,
   .recv (.datagram 2 (frame msgTransaction 0 1 3 [8, 0, 0, 0, 0, 0, 0, 0, 43])), .thread,
   .call (.wait .nextUpdate), .consumer]

/-- The other transaction of the stream is received, and nothing is missing. -/
theorem gapRun_account : ∃ t os, udp.run (bind 1) (gapRun.map Action.cut) = some (t, os) ∧
    (receivedOf os).length = 1 ∧ t.decoder.stats.messages = UInt64.ofNat 1 ∧
    [⟨8, [43]⟩] = (receivedOf os ++ t.queue ++ t.thread.inHand).map transactionOf := by
  have hrun := udp_end_to_end gapSent (by decide) 1 gapRun _ _ (by decide) rfl
  exact ⟨_, _, rfl, rfl, hrun.2.1, hrun.2.2 rfl⟩

end Udp

end ShredStream
