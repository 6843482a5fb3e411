import ShredStream.Theory.Frame.Invariant
import ShredStream.Theory.Udp.EndToEnd

/-!
# What a Client Holds

A UDP client listens on an open port, so what it keeps must not depend on what
is sent to it. It keeps fragments of one set at a time, which are fewer than
the set has and not longer than the receive buffer; an update it has decoded
and not yet pushed; and what is queued. Each of these is bounded by constants
of the source and by the configured capacity, for every sender and every
number of datagrams.

The bounds hold between two steps. Inside of a push that completes a set the
whole of it and the copy in the update exist together, so for that moment one
set more is held. And what is bounded are lengths: a vector may have room for
more than it holds.

The bound on one update is also what the client can receive at all: a
transaction that is longer than 255 payloads, less the slot, never comes out.

## Main definitions

* `maxPayload`, `maxSet`: What a datagram and a fragment set can carry.
* `UdpClient.held`: The bytes a client holds.

## Theorems

* `length_buf_pushAll`: A set in progress.
* `length_updates`: An update.
* `udp_memory`: Everything a client holds.
* `noisyRun_memory`: A client that is sent a first fragment for ever.
-/

namespace ShredStream

namespace Codec

open StreamDecoder

/-- What is left of a full receive buffer behind the header. -/
def maxPayload : Nat := maxDatagram + 64 - frameHeaderLen

/-- The payloads of as many fragments as a set can have. -/
def maxSet : Nat := 255 * maxPayload

namespace StreamDecoder

theorem length_payload (b : Bytes) (h : b.length ≤ maxDatagram + 64) :
    (payload b).length ≤ maxPayload := by
  rw [payload, List.length_drop]
  exact Nat.sub_le_sub_right h frameHeaderLen

/-- A set in progress lacks a fragment at least. -/
theorem length_buf_pushAll (arrivals : List Arrival)
    (hsmall : ∀ a ∈ arrivals, a.datagram.length ≤ maxDatagram + 64) :
    (new.pushAll arrivals).reasm.buf.length + maxPayload ≤ maxSet := by
  have h := consistent_pushAll arrivals
  rw [maxSet]
  cases hactive : (new.pushAll arrivals).reasm.active with
  | false =>
      rw [(h.idle hactive).1, List.length_nil]
      omega
  | true =>
      have hbuf := length_buf_le _ _ (h.inProgress hactive) maxPayload (fun d hd => by
        rcases mem_acceptedOf arrivals _ d hd with ⟨a, ha, rfl⟩
        exact length_payload a.datagram (hsmall a ha))
      have hcount := UInt8.toNat_lt (new.pushAll arrivals).reasm.fragCount
      have hle : ((new.pushAll arrivals).reasm.fragCount.toNat - 1) * maxPayload
          ≤ 254 * maxPayload := Nat.mul_le_mul_right maxPayload (by omega)
      omega

/-- An update is made of one payload, or of a set in progress and one more. -/
theorem length_update (d : StreamDecoder) (now : SystemTime) (b : Bytes) (u : TransactionUpdate)
    (hbuf : d.reasm.buf.length + maxPayload ≤ maxSet) (hb : (payload b).length ≤ maxPayload)
    (h : (d.push now b).result = .update u) : u.bytes.length + 8 ≤ maxSet := by
  have hwhole : ∀ whole : Bytes, whole.length ≤ maxSet → 8 ≤ whole.length ∧ u = updateOf now whole →
      u.bytes.length + 8 ≤ maxSet := by
    rintro whole hle ⟨h8, rfl⟩
    simp only [updateOf, List.length_drop]
    omega
  have hp := push_pushes d now b
  generalize d.push now b = r at hp h
  cases hp with
  | rejected | other | misfit | first | broken | more => cases h
  | lone => exact hwhole (payload b) (by omega) ((complete_result _ _ _ _).mp h)
  | last =>
      refine hwhole (d.reasm.buf ++ payload b) ?_ ((complete_result _ _ _ _).mp h)
      rw [List.length_append]
      omega

theorem length_updates (arrivals : List Arrival)
    (hsmall : ∀ a ∈ arrivals, a.datagram.length ≤ maxDatagram + 64) :
    ∀ u ∈ updatesOf (new.pushes arrivals), u.bytes.length + 8 ≤ maxSet := by
  induction arrivals using List.reverseRecOn with
  | nil =>
      intro u hu
      exact absurd hu List.not_mem_nil
  | append_singleton arrivals a ih =>
      have hbefore := fun b hb => hsmall b (List.mem_append_left [a] hb)
      have ha := hsmall a (List.mem_append_right _ (List.mem_singleton_self a))
      intro u hu
      rw [pushes_append_singleton, updatesOf_append, updatesOf_singleton] at hu
      rcases List.mem_append.mp hu with hu | hu
      · exact ih hbefore u hu
      · split at hu
        · rename_i u' hres
          rw [List.mem_singleton.mp hu]
          exact length_update _ a.now a.datagram u' (length_buf_pushAll arrivals hbefore)
            (length_payload a.datagram ha) hres
        · exact absurd hu List.not_mem_nil

end StreamDecoder

end Codec

namespace Udp

open Codec StreamDecoder BoundedFifo

/-- The bytes a client holds: those of the set in progress, and of the updates
    that are queued or in the thread's hand. -/
def UdpClient.held (s : UdpClient) : Nat :=
  s.decoder.reasm.buf.length
    + ((s.queue ++ s.thread.inHand).map (fun u => u.bytes)).flatten.length

/-- A datagram that is handed over fits into the receive buffer. -/
theorem length_handedOver (arrivals : List Arrival) :
    ∀ a ∈ handedOver arrivals, a.datagram.length ≤ maxDatagram + 64 := by
  intro a ha
  rcases List.mem_map.mp ha with ⟨b, _, rfl⟩
  exact List.length_take_le _ _

theorem length_inHand (pc : ThreadPc) : pc.inHand.length ≤ 1 := by
  cases pc with
  | push u => exact Nat.le_refl 1
  | check | recv | count | notify | shutStore | shutNotify | done => exact Nat.zero_le 1

/-- Whatever is sent to a client, in every run: an update that comes out is at
    most a full set, less the slot; and between two steps the client never
    holds more than the set in progress, the queue and one update. What a push
    copies inside of a step, and room that a vector has to spare, is not in
    these lengths. -/
theorem udp_memory (queueCapacity : Nat) (network : List Action) (t : UdpClient)
    (os : List Output)
    (h : udp.run (bind queueCapacity) (network.map Action.cut) = some (t, os)) :
    (∀ u ∈ producedOf os, u.bytes.length ≤ maxSet - 8) ∧
    t.decoder.reasm.buf.length ≤ maxSet - maxPayload ∧
    t.held ≤ (maxSet - maxPayload) + (max queueCapacity 1 + 1) * (maxSet - 8) := by
  rcases decoded_run queueCapacity _ t os h with ⟨hproduced, hreasm⟩
  have hsmall := length_handedOver (arrivalsOf network)
  rw [← arrivalsOf_cut] at hsmall
  have hupdates := length_updates _ hsmall
  have hbuf := length_buf_pushAll _ hsmall
  rw [← hproduced] at hupdates
  rw [← hreasm] at hbuf
  -- What is held was produced.
  rcases ledger_run queueCapacity _ t os h with ⟨gone, hgone, _⟩
  have hheld : ∀ bs ∈ (t.queue ++ t.thread.inHand).map (fun u => u.bytes),
      bs.length ≤ maxSet - 8 := by
    intro bs hbs
    rcases List.mem_map.mp hbs with ⟨u, hu, rfl⟩
    have hle := hupdates u (by rw [hgone]; exact List.mem_append_right gone hu)
    omega
  have hlen : ((t.queue ++ t.thread.inHand).map (fun u => u.bytes)).length
      ≤ max queueCapacity 1 + 1 := by
    have hbound := (account_run queueCapacity _ t os h).bound
    rw [capacity_run queueCapacity _ t os h] at hbound
    have hhand := length_inHand t.thread
    rw [List.length_map, List.length_append]
    omega
  refine ⟨fun u hu => ?_, by omega, ?_⟩
  · have hle := hupdates u hu
    omega
  · have hsum := length_flatMap_le _ id (maxSet - 8) hheld
    rw [List.flatMap_id] at hsum
    have hmul := Nat.mul_le_mul_right (maxSet - 8) hlen
    rw [UdpClient.held]
    omega

/-- First fragments of a set of 255, and no others. -/
def noisyRun : List Action :=
  [.thread, .recv (.datagram 0 (frame msgTransaction 0 255 0 [1, 2, 3])), .thread,
   .recv (.datagram 1 (frame msgTransaction 0 255 9 [4, 5]))]

/-- Only the last of them is kept. -/
theorem noisyRun_memory : ∃ t os, udp.run (bind 0) (noisyRun.map Action.cut) = some (t, os) ∧
    t.held = 2 ∧ t.held ≤ (maxSet - maxPayload) + 2 * (maxSet - 8) :=
  ⟨_, _, rfl, rfl, (udp_memory 0 noisyRun _ _ rfl).2.2⟩

end Udp

end ShredStream
