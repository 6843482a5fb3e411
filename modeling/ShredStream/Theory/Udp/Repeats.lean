import Mathlib.Data.List.Flatten
import ShredStream.Theory.Frame.Duplicates
import ShredStream.Theory.Udp.EndToEnd

/-!
# Repeated Datagrams

The consumer of a UDP client behind a network that may do anything but change
what was sent: lose fragments, repeat them, hold them back, and mix in
datagrams of others. What is received is then no longer told by what arrives
alone, as in `EndToEnd.lean`, but it is still nothing but transactions that
were sent, and each time one is received all its fragments have arrived once
more, in order, with arrivals that no other update was made of.

So a transaction is received at most as often as each of its fragments
arrives. A client of a network that repeats nothing receives nothing twice.

## Theorems

* `count_le_flatMap`: How often an element of a list occurs in what the list
  is mapped to.
* `udp_at_most_once`: What a consumer may receive.
* `lateRun_received`: A run behind a network that reorders.
-/

namespace ShredStream

namespace Udp

open Codec StreamDecoder UdpClient BoundedFifo

/-- An element occurs at least as often as what it contributes to. -/
theorem count_le_flatMap {α β : Type} [BEq α] [LawfulBEq α] [BEq β] [LawfulBEq β]
    (f : α → List β) (x : α) (y : β) (hy : y ∈ f x) (l : List α) :
    l.count x ≤ (l.flatMap f).count y := by
  induction l with
  | nil => exact Nat.zero_le _
  | cons a l ih =>
      rw [List.flatMap_cons, List.count_append, List.count_cons]
      by_cases ha : a = x
      · have hpos := List.count_pos_iff.mpr hy
        rw [← ha] at hpos
        rw [beq_iff_eq.mpr ha, if_pos rfl]
        omega
      · rw [beq_eq_false_iff_ne.mpr ha, if_neg Bool.false_ne_true]
        omega

open Classical in
/-- What a consumer may receive, in every run, behind a network that loses,
    repeats and reorders what was sent: transactions that were sent, each time
    made of arrivals of its own. So none is received more often than each of
    its fragments arrives, and none twice if no fragment arrives twice. -/
theorem udp_at_most_once (sent : Sent) (hsmall : ∀ d ∈ sent.datagrams, d.length ≤ maxDatagram)
    (queueCapacity : Nat) (network : List Action) (t : UdpClient) (os : List Output)
    (hnet : ∀ d ∈ fragments ((arrivalsOf network).map (fun a => a.datagram)),
      d ∈ sent.datagrams)
    (h : udp.run (bind queueCapacity) (network.map Action.cut) = some (t, os)) :
    let arrived := fragments ((arrivalsOf network).map (fun a => a.datagram))
    ∃ received : List Transmission, (∀ x ∈ received, x ∈ sent.transmissions) ∧
      (receivedOf os).map transactionOf = received.map (fun x => x.tx) ∧
      (received.flatMap (fun x => x.datagrams)).Sublist arrived ∧
      (∀ x ∈ received, ∀ d ∈ x.datagrams, received.count x ≤ arrived.count d) ∧
      (arrived.Nodup → received.Nodup) := by
  intro arrived
  have hcut : fragments ((arrivalsOf (network.map Action.cut)).map (fun a => a.datagram))
      = arrived := by
    rw [arrivalsOf_cut, datagrams_handedOver]
    exact fragments_recvInto _ (fun d hd => hsmall d (hnet d hd))
  rcases transactions_windows sent (arrivalsOf (network.map Action.cut))
    (by rw [hcut]; exact hnet) with ⟨delivered, hall, hdelivered, hwindows⟩
  rw [hcut] at hwindows
  -- What is received was produced, so it is made of some of the windows.
  have hsub := ledger_sublist _ _ _ _ (ledger_run queueCapacity _ t os h)
  rw [(decoded_run queueCapacity _ t os h).1] at hsub
  have hmap := hsub.map transactionOf
  rw [hdelivered] at hmap
  rcases List.sublist_map_iff.mp hmap with ⟨received, hreceived, heq⟩
  have hflat : (received.flatMap (fun x => x.datagrams)).Sublist arrived :=
    (hreceived.flatMap _).trans hwindows
  have hcount : ∀ x ∈ received, ∀ d ∈ x.datagrams, received.count x ≤ arrived.count d :=
    fun x _ d hd => (count_le_flatMap (fun x => x.datagrams) x d hd received).trans
      (hflat.count_le d)
  refine ⟨received, fun x hx => hall x (hreceived.subset hx), heq, hflat, hcount, fun hn => ?_⟩
  rw [List.nodup_iff_count_le_one]
  intro x
  by_cases hx : x ∈ received
  · -- Every transaction has a fragment, and that has arrived once.
    have hne : x.datagrams ≠ [] := by
      intro hnil
      have hsome := x.some_fragments
      rw [hnil, List.length_nil] at hsome
      omega
    rcases List.exists_mem_of_ne_nil _ hne with ⟨d, hd⟩
    exact (hcount x hx d hd).trans (List.nodup_iff_count_le_one.mp hn d)
  · rw [List.count_eq_zero_of_not_mem hx]
    exact Nat.zero_le 1

/-- The fragments of the first transaction arrive behind the second, in the
    wrong order. -/
def lateRun : List Action :=
  [.thread, .recv (.datagram 0 (frame msgTransaction 0 1 3 [8, 0, 0, 0, 0, 0, 0, 0, 43])), .thread,
   .thread, .thread, .recv (.datagram 1 (frame msgTransaction 1 2 1 [0, 0, 0, 0, 0, 42])), .thread,
   .recv (.datagram 2 (frame msgTransaction 0 2 0 [7, 0, 0])), .call (.wait .nextUpdate), .consumer]

/-- What is received of it was sent, and is not received again. -/
theorem lateRun_received : ∃ t os, udp.run (bind 1) (lateRun.map Action.cut) = some (t, os) ∧
    (receivedOf os).map transactionOf = [⟨8, [43]⟩] ∧
    ∃ received : List Transmission, received.Nodup ∧
      (receivedOf os).map transactionOf = received.map (fun x => x.tx) := by
  have hrun := udp_at_most_once gapSent (by decide) 1 lateRun _ _ (by decide) rfl
  rcases hrun with ⟨received, _, heq, _, _, hnodup⟩
  exact ⟨_, _, rfl, rfl, received, hnodup (by decide), heq⟩

end Udp

end ShredStream
