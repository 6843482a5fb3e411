import ShredStream.Lib.Windows
import ShredStream.Theory.Frame.Lossy

/-!
# Nothing Twice

A network that loses, repeats and reorders, and the same transaction again and
again. Nothing in the source remembers what was returned before, so a
transaction can come twice: where all its fragments are repeated in order, it
is returned again. But that is the only way. Every update is made of arrivals
of its own, one for each fragment and in their order, so no transaction is
returned more often than each of its fragments arrives, and in a network that
repeats nothing it is returned once at most.

The receiver's part is `Lib/Windows.lean`. Which transaction a complete set of
pieces belongs to is told by the stamps, as in `Theory/Frame/Sender.lean`; here
the stamps also tell which datagrams the pieces came in.

## Theorems

* `Sent.eq_of_seq`: A stamp is on one frame only.
* `transmission_of_complete`: A complete set is what a transaction was sent in.
* `transactions_windows`: What is returned, and which arrivals it is made of.
-/

namespace ShredStream

namespace Codec

open Reassembly StreamDecoder

/-- A stamp is on one frame only. -/
theorem Sent.eq_of_seq (sent : Sent) (d d' : Bytes) (hd : d ∈ sent.datagrams)
    (hd' : d' ∈ sent.datagrams) (h : (pieceOf d).seq = (pieceOf d').seq) : d = d' := by
  rcases List.mem_iff_getElem?.mp hd with ⟨i, hi⟩
  rcases List.mem_iff_getElem?.mp hd' with ⟨j, hj⟩
  rcases sent.stamped i d hi with ⟨header, hh, hs⟩
  rcases sent.stamped j d' hj with ⟨header', hh', hs'⟩
  rw [pieceOf_eq d header hh, pieceOf_eq d' header' hh'] at h
  simp only [hs, hs', UInt64.add_right_inj] at h
  -- Both positions are below 2^64.
  have hnat := congrArg UInt64.toNat h
  rw [UInt64.toNat_ofNat', UInt64.toNat_ofNat'] at hnat
  have hlt := (List.getElem?_eq_some_iff.mp hi).1
  have hlt' := (List.getElem?_eq_some_iff.mp hj).1
  have hfew := sent.few
  obtain rfl : i = j := by omega
  exact Option.some.inj (hi.symm.trans hj)

/-- So the pieces tell the datagrams. -/
theorem Sent.eq_of_pieces (sent : Sent) (ds : List Bytes) : ∀ ds' : List Bytes,
    (∀ d ∈ ds, d ∈ sent.datagrams) → (∀ d ∈ ds', d ∈ sent.datagrams) →
      ds.map pieceOf = ds'.map pieceOf → ds = ds' := by
  induction ds with
  | nil =>
      intro ds' _ _ h
      exact (List.map_eq_nil_iff.mp h.symm).symm
  | cons d ds ih =>
      intro ds' hds hds' h
      rcases ds' with _ | ⟨d', ds'⟩
      · cases h
      rw [List.map_cons, List.map_cons, List.cons.injEq] at h
      have hhead := sent.eq_of_seq d d' (hds d List.mem_cons_self) (hds' d' List.mem_cons_self)
        (congrArg Piece.seq h.1)
      have htail := ih ds' (fun x hx => hds x (List.mem_cons_of_mem d hx))
        (fun x hx => hds' x (List.mem_cons_of_mem d' hx)) h.2
      rw [hhead, htail]

/-- Datagrams that were sent and whose pieces are all of a message are those
    that one transaction was sent in. -/
theorem transmission_of_complete (sent : Sent) (set : List Bytes)
    (hset : ∀ d ∈ set, d ∈ sent.datagrams ∧ ¬ Noise d)
    (h : Complete (· + 1) (set.map pieceOf)) : ∃ t ∈ sent.transmissions, t.datagrams = set := by
  rcases h with ⟨p, hp, hcount⟩ | ⟨h2, s, hord⟩
  · rcases List.map_eq_singleton_iff.mp hp with ⟨d, rfl, rfl⟩
    rcases hset d (List.mem_singleton_self d) with ⟨hd, hn⟩
    exact transmission_of_lone sent d hd hn hcount
  · rw [List.length_map] at h2 hord
    have hn : ∀ d ∈ set, ¬ Noise d := fun d hd => (hset d hd).2
    have hne : set ≠ [] := by
      rintro rfl
      rw [List.length_nil] at h2
      omega
    rcases stretch_of_consecutive sent set s hne (fun d hd => (hset d hd).1) (fun i d hd => by
      rcases (inOrder_pieces_iff set hn _ s).mp hord i d hd with ⟨header, hh, _, _, hs⟩
      exact ⟨header, hh, hs⟩) with ⟨before, rest, hstretch⟩
    rcases transmission_of_stretch sent set before rest s hstretch hn h2 hord with ⟨t, ht, heq⟩
    exact ⟨t, ht, sent.eq_of_pieces _ _ (sent.mem_of_mem t ht) (fun d hd => (hset d hd).1) heq⟩

/-- Complete sets one after the other are transmissions one after the other. -/
theorem transmissions_of_sets (sent : Sent) (sets : List (List (Piece UInt64 UInt8)))
    (hsets : ∀ set ∈ sets, Complete (· + 1) set) : ∀ ds : List Bytes,
    (∀ d ∈ ds, d ∈ sent.datagrams ∧ ¬ Noise d) → sets.flatten = ds.map pieceOf →
      ∃ delivered : List Transmission, (∀ t ∈ delivered, t ∈ sent.transmissions) ∧
        delivered.flatMap (fun t => t.datagrams) = ds ∧
        sets = delivered.map (fun t => t.datagrams.map pieceOf) := by
  induction sets with
  | nil =>
      intro ds _ h
      rw [List.map_eq_nil_iff.mp h.symm]
      exact ⟨[], fun t ht => absurd ht List.not_mem_nil, rfl, rfl⟩
  | cons set sets ih =>
      intro ds hds h
      rw [List.flatten_cons] at h
      rcases List.map_eq_append_iff.mp h.symm with ⟨ds₁, ds₂, rfl, rfl, h₂⟩
      rcases transmission_of_complete sent ds₁ (fun d hd => hds d (List.mem_append_left _ hd))
        (hsets _ List.mem_cons_self) with ⟨t, ht, rfl⟩
      rcases ih (fun x hx => hsets x (List.mem_cons_of_mem _ hx)) ds₂
        (fun d hd => hds d (List.mem_append_right _ hd)) h₂.symm with ⟨delivered, hall, rfl, rfl⟩
      refine ⟨t :: delivered, fun x hx => ?_, List.flatMap_cons, rfl⟩
      rcases List.mem_cons.mp hx with rfl | hx
      · exact ht
      · exact hall x hx

/-- What is returned of a stream that reaches the decoder in any way: some of
    the transactions that were sent, each made of arrivals of its own. -/
theorem transactions_windows (sent : Sent) (arrivals : List Arrival)
    (h : ∀ d ∈ fragments (arrivals.map (fun a => a.datagram)), d ∈ sent.datagrams) :
    ∃ delivered : List Transmission, (∀ t ∈ delivered, t ∈ sent.transmissions) ∧
      (updatesOf (new.pushes arrivals)).map transactionOf = delivered.map (fun t => t.tx) ∧
      (delivered.flatMap (fun t => t.datagrams)).Sublist
        (fragments (arrivals.map (fun a => a.datagram))) := by
  have hfragments : ∀ d ∈ fragments (arrivals.map (fun a => a.datagram)),
      d ∈ sent.datagrams ∧ ¬ Noise d := fun d hd => ⟨h d hd, ((mem_fragments _ d).mp hd).2⟩
  have hvalid : ∀ p ∈ (fragments (arrivals.map (fun a => a.datagram))).map pieceOf, p.Valid := by
    intro p hp
    rcases List.mem_map.mp hp with ⟨d, hd, rfl⟩
    exact pieceOf_valid d (hfragments d hd).2
  rcases deliveries_windows (· + 1) _ hvalid none [] rfl with ⟨sets, hsets, hflat, hdel⟩
  rw [List.nil_append] at hflat
  rcases List.sublist_map_iff.mp hflat with ⟨ds, hsub, hds⟩
  rcases transmissions_of_sets sent sets hsets ds
    (fun d hd => hfragments d (hsub.subset hd)) hds with ⟨delivered, hall, rfl, rfl⟩
  refine ⟨delivered, hall, ?_, hsub⟩
  have hview : new.reasm.view = none := rfl
  rw [transactions_pushes, hview, hdel, List.map_map, List.filterMap_map]
  -- Every set is read as the transaction that was sent in it.
  have hread : ∀ t ∈ delivered, readWire (join (t.datagrams.map pieceOf)) = some t.tx := by
    intro t ht
    rw [join_pieces t.datagrams (sent.not_noise t (hall t ht)), t.payloads, readWire_wire]
  have hsome : delivered.filterMap (some ∘ fun t => t.tx) = delivered.map (fun t => t.tx) := by
    rw [List.filterMap_eq_map]
  exact (List.filterMap_congr hread).trans hsome

end Codec

end ShredStream
