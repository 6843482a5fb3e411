import ShredStream.Lib.EditDistance
import ShredStream.Theory.Frame.Resync

/-!
# What a Mishap Costs

A network may do to a datagram what it likes: lose it, repeat it, corrupt it,
bring it late, or bring one that nobody sent. Losing is one edit of the stream
of datagrams, and so is repeating, corrupting or making one up; a datagram that
comes late is taken out in one place and put in at another. Each edit of the
datagrams is at most one edit of the transactions the decoder makes of them. So
however a stream was treated, the transactions are no further from the right
ones than the datagrams are from those that were sent.

What is behind it is that a decoder forgets (`Resync.lean`), which makes it a
forgetful transducer in the sense of `Lib/EditDistance.lean`: with a fragment
set in progress it has one transaction to spare, and none behind an update.

## Main definitions

* `decoding`: The decoder as a transducer.
* `spare`: What a decoder has to spare.

## Theorems

* `outputs_decoding`: The transducer writes what the decoder returns.
* `decoding_forgetful`: It is forgetful.
* `transactions_edits`: What mishaps cost.
-/

namespace ShredStream

namespace Codec

namespace StreamDecoder

open EditDistance Reassembly

/-- Reads datagrams and writes transactions. When they are pushed does not
    matter, see `outputs_decoding`. -/
def decoding : Transducer StreamDecoder Bytes Transaction where
  next d b := (d.push 0 b).decoder
  emit d b := (updatesOf [d.push 0 b]).map transactionOf

/-- A set in progress may become one transaction. -/
def spare (d : StreamDecoder) : Nat := if d.reasm.active then 1 else 0

/-- The datagrams pushed at time zero. -/
def timeless (datagrams : List Bytes) : List Arrival := datagrams.map (fun b => ⟨0, b⟩)

theorem outputs_timeless (datagrams : List Bytes) : ∀ d : StreamDecoder,
    decoding.outputs d datagrams
      = (updatesOf (d.pushes (timeless datagrams))).map transactionOf := by
  induction datagrams with
  | nil =>
      intro d
      rfl
  | cons b datagrams ih =>
      intro d
      have hcons : timeless (b :: datagrams) = ⟨0, b⟩ :: timeless datagrams := rfl
      rw [Transducer.outputs, ih, hcons, pushes, updatesOf_cons, List.map_append]
      rfl

theorem datagrams_timeless (datagrams : List Bytes) :
    (timeless datagrams).map (fun a => a.datagram) = datagrams := by
  rw [timeless, List.map_map]
  exact List.map_id _

/-- The transactions a decoder returns are what the transducer writes. -/
theorem outputs_decoding (d : StreamDecoder) (arrivals : List Arrival) :
    (updatesOf (d.pushes arrivals)).map transactionOf
      = decoding.outputs d (arrivals.map (fun a => a.datagram)) := by
  -- Both are what the receiver delivers of the same pieces.
  rw [outputs_timeless, transactions_pushes, transactions_pushes, datagrams_timeless]

/-- An update ends the set in progress, and a push returns one at most. -/
theorem spent_push (d : StreamDecoder) (b : Bytes) :
    (decoding.emit d b).length + spare (decoding.next d b) ≤ 1 := by
  have hp := push_pushes d 0 b
  have hlen := length_updatesOf_singleton (d.push 0 b)
  change ((updatesOf [d.push 0 b]).map transactionOf).length + spare (d.push 0 b).decoder ≤ 1
  rw [List.length_map]
  generalize d.push 0 b = r at hp hlen ⊢
  have hidle : r.decoder.reasm = .reset → (updatesOf [r]).length + spare r.decoder ≤ 1 := by
    intro hreset
    rw [spare, hreset]
    exact hlen
  have hnone : updatesOf [r] = [] → (updatesOf [r]).length + spare r.decoder ≤ 1 := by
    intro hempty
    rw [hempty, List.length_nil, Nat.zero_add, spare]
    split <;> decide
  cases hp with
  | rejected | other | misfit | first | broken | more => exact hnone rfl
  | lone | last => exact hidle (complete_reasm _ _ _)

/-- Two decoders soon write the same, since they forget. -/
theorem decoding_forgetful : decoding.Forgetful spare := by
  refine ⟨fun d d' datagrams => ?_, fun d => ?_, spent_push⟩
  · rcases updates_converge (timeless datagrams) d d' with
      ⟨extra, extra', common, h, h', hlen, hlen', hidle, hidle'⟩
    have hspare : ∀ (d : StreamDecoder) (us : List TransactionUpdate), us.length ≤ 1 →
        (d.reasm.active = false → us = []) → (us.map transactionOf).length ≤ spare d := by
      intro d us hone hnone
      rw [List.length_map, spare]
      cases hactive : d.reasm.active with
      | true => exact hone
      | false =>
          rw [hnone hactive]
          exact Nat.le_refl 0
    refine ⟨extra.map transactionOf, extra'.map transactionOf, common.map transactionOf, ?_, ?_,
      hspare d extra hlen hidle, hspare d' extra' hlen' hidle'⟩
    · rw [outputs_timeless, h, List.map_append]
    · rw [outputs_timeless, h', List.map_append]
  · rw [spare]
    split <;> decide

/-- What mishaps cost: the transactions are no further apart than the
    datagrams, whatever the decoder was doing before and whenever they come. -/
theorem transactions_edits (d : StreamDecoder) (n : Nat) (arrivals arrivals' : List Arrival)
    (h : Edits n (arrivals.map (fun a => a.datagram)) (arrivals'.map (fun a => a.datagram))) :
    Edits n ((updatesOf (d.pushes arrivals)).map transactionOf)
      ((updatesOf (d.pushes arrivals')).map transactionOf) := by
  rw [outputs_decoding, outputs_decoding]
  exact decoding.edits_outputs spare decoding_forgetful d n _ _ h

end StreamDecoder

end Codec

end ShredStream
