import ShredStream.Theory.Frame.Edits
import ShredStream.Theory.Udp.EndToEnd

/-!
# Mishaps on the Way

What becomes of the transactions of a sender when the network loses, repeats,
corrupts, delays and makes up datagrams as it likes. Nothing is assumed of it:
it is only counted how far the datagrams that arrive are from those that were
sent. What the thread produces is no further from the transactions that were
sent in one piece, and what the consumer has received is further only by what
was evicted, is queued, or is in the thread's hand.

## Theorems

* `transactions_sent`: What is returned when nothing happens on the way.
* `udp_mishaps`: What `n` mishaps cost.
* `repeatedRun_mishaps`: A fragment and a transaction that come twice.
-/

namespace ShredStream

namespace Udp

open Codec StreamDecoder UdpClient BoundedFifo EditDistance

instance (transmission : Transmission) (sent : Sent) : Decidable (transmission.Unbroken sent) :=
  inferInstanceAs (Decidable (transmission.datagrams <:+: sent.datagrams))

/-- Of the stream as it was sent, the transactions are returned between whose
    fragments nothing else was sent. -/
theorem transactions_sent (sent : Sent) :
    (updatesOf (new.pushes (timeless sent.datagrams))).map transactionOf
      = (sent.transmissions.filter (fun transmission => transmission.Unbroken sent)).map
          (fun transmission => transmission.tx) := by
  have hsublist : (fragments ((timeless sent.datagrams).map (fun a => a.datagram))).Sublist
      sent.datagrams := by
    rw [datagrams_timeless]
    exact List.filter_sublist
  rw [transactions_lossy sent _ hsublist, datagrams_timeless]
  refine congrArg _ (List.filter_congr (fun transmission _ => decide_eq_decide.mpr ?_))
  exact and_iff_right_of_imp (fun hunbroken d hd => hunbroken.subset hd)

/-- What `n` mishaps on the way cost, each of which loses, adds or replaces one
    datagram: at most `n` transactions lost, added or replaced in what the
    thread produces, and in what the consumer has received as many more as were
    evicted or are still to come. -/
theorem udp_mishaps (sent : Sent) (hsmall : ∀ d ∈ sent.datagrams, d.length ≤ maxDatagram)
    (queueCapacity n : Nat) (network : List Action) (t : UdpClient) (os : List Output)
    (hnet : Edits n sent.datagrams ((arrivalsOf network).map (fun a => a.datagram)))
    (h : udp.run (bind queueCapacity) (network.map Action.cut) = some (t, os)) :
    let whole := (sent.transmissions.filter
      (fun transmission => transmission.Unbroken sent)).map (fun transmission => transmission.tx)
    Edits n whole ((producedOf os).map transactionOf) ∧
    Edits (n + ((evictedOf os).length + t.queue.length + t.thread.inHand.length)) whole
      ((receivedOf os).map transactionOf) := by
  intro whole
  have hcut : sent.datagrams.map recvInto = sent.datagrams :=
    (List.map_congr_left (fun d hd => recvInto_of_small d (hsmall d hd))).trans (List.map_id _)
  -- The socket hands over a stream that is no further from what was sent.
  have hhanded : Edits n ((timeless sent.datagrams).map (fun a => a.datagram))
      ((handedOver (arrivalsOf network)).map (fun a => a.datagram)) := by
    rw [datagrams_timeless, datagrams_handedOver, ← hcut]
    exact edits_map recvInto n _ _ hnet
  have hproduced : Edits n whole ((producedOf os).map transactionOf) := by
    have hedits := transactions_edits new n _ _ hhanded
    rw [transactions_sent] at hedits
    rw [(decoded_run queueCapacity _ t os h).1, arrivalsOf_cut]
    exact hedits
  have hledger := ledger_map transactionOf _ _ _ _ (ledger_run queueCapacity _ t os h)
  have hmissing := edits_symm _ _ _ (edits_sublist _ _ (ledger_sublist _ _ _ _ hledger))
  have hcount : ((producedOf os).map transactionOf).length
      - ((receivedOf os).map transactionOf).length
        = (evictedOf os).length + t.queue.length + t.thread.inHand.length := by
    have hlength := ledger_length _ _ _ _ hledger
    simp only [List.length_map, List.length_append] at hlength ⊢
    omega
  rw [hcount] at hmissing
  exact ⟨hproduced, edits_trans n _ _ _ _ hproduced hmissing⟩

/-- The first fragment of two comes twice, and the lone transaction takes the
    place of the event before it; the consumer takes one update. -/
def repeatedRun : List Action :=
  [.thread, .recv (.datagram 0 (frame msgTransaction 0 2 0 [7, 0, 0])), .thread,
   .recv (.datagram 1 (frame msgTransaction 0 2 0 [7, 0, 0])), .thread,
   .recv (.datagram 2 (frame msgTransaction 1 2 1 [0, 0, 0, 0, 0, 42])), .thread, .thread, .thread,
   .recv (.datagram 3 (frame msgTransaction 0 1 3 [8, 0, 0, 0, 0, 0, 0, 0, 43])), .thread,
   .thread, .thread,
   .recv (.datagram 4 (frame msgTransaction 0 1 3 [8, 0, 0, 0, 0, 0, 0, 0, 43])),
   .call (.wait .nextUpdate), .consumer]

/-- Two mishaps, of which one costs nothing: the lone transaction is produced
    twice. The consumer has not seen either of them yet. -/
theorem repeatedRun_mishaps : ∃ t os, udp.run (bind 4) (repeatedRun.map Action.cut) = some (t, os) ∧
    (producedOf os).map transactionOf = [⟨7, [42]⟩, ⟨8, [43]⟩, ⟨8, [43]⟩] ∧
    (receivedOf os).map transactionOf = [⟨7, [42]⟩] ∧
    Edits 2 [⟨7, [42]⟩, ⟨8, [43]⟩] ((producedOf os).map transactionOf) ∧
    Edits 4 [⟨7, [42]⟩, ⟨8, [43]⟩] ((receivedOf os).map transactionOf) := by
  have hnet : Edits 2 gapSent.datagrams ((arrivalsOf repeatedRun).map (fun a => a.datagram)) :=
    edits_trans 1 1 _ _ _
      (edits_one [gapSent.datagrams.head (by decide)] [] [gapSent.datagrams.head (by decide)]
        gapSent.datagrams.tail (by decide) (by decide))
      (edits_one (gapSent.datagrams.head (by decide) :: gapSent.datagrams.take 2)
        [frame msgEvent 0 1 2 []] [frame msgTransaction 0 1 3 [8, 0, 0, 0, 0, 0, 0, 0, 43]]
        [frame msgTransaction 0 1 3 [8, 0, 0, 0, 0, 0, 0, 0, 43]] (by decide) (by decide))
  have hrun : ∃ t os, udp.run (bind 4) (repeatedRun.map Action.cut) = some (t, os) ∧
      (producedOf os).map transactionOf = [⟨7, [42]⟩, ⟨8, [43]⟩, ⟨8, [43]⟩] ∧
      (receivedOf os).map transactionOf = [⟨7, [42]⟩] ∧
      (evictedOf os).length + t.queue.length + t.thread.inHand.length = 2 :=
    ⟨_, _, rfl, rfl, rfl, rfl⟩
  rcases hrun with ⟨t, os, hrun, hproduced, hreceived, htwo⟩
  have hmishaps := udp_mishaps gapSent (by decide) 4 2 repeatedRun t os hnet hrun
  rw [htwo] at hmishaps
  exact ⟨t, os, hrun, hproduced, hreceived, hmishaps.1, hmishaps.2⟩

end Udp

end ShredStream
