import Mathlib.Data.List.Nodup
import Mathlib.Data.List.Perm.Subperm
import ShredStream.Lib.Loss
import ShredStream.Theory.Frame.Accounting

/-!
# Exactly What Arrives Intact

What a decoder makes of a stream that reaches it with losses. Datagrams of the
sender may be missing, and datagrams that are no fragments of a transaction
may be mixed in anywhere, whoever sent them; the fragments that arrive do so
in the order in which they were sent.

Then nothing is left to chance. The updates returned are the transactions of
which all fragments arrive and between whose fragments the sender sent nothing
else, each once and in order. So one lost datagram costs one transaction, and
no other is harmed.

The reassembler is the receiver of `Lib/Loss.lean`. What that asks of the
stream comes from the stamps: they are distinct, so the frame with the number
after a fragment's is the frame sent right after it, and unless the fragment
is its transaction's last that is a frame of the same transaction or of none.

## Main definitions

* `transactionOf`: The transaction an update carries.
* `Transmission.Unbroken`: Nothing was sent between the fragments.
* `Transmission.Survives`: Moreover all of them arrive.

## Theorems

* `transactions_pushes`: What is returned is what the receiver delivers.
* `Sent.nodup`: No two frames that were sent are the same.
* `follows_iff`: Which frame carries the number after another's.
* `fragments_flatMap`: What arrives, sorted by transaction.
* `stats_pushAll`: And it is counted.
* `lossy_exact`: What is returned of a stream with losses.
* `gapSent_exact`: A stream that loses one transaction of two.
-/

namespace ShredStream

namespace Codec

open Reassembly StreamDecoder

/-- The transaction an update carries. -/
def transactionOf (u : TransactionUpdate) : Transaction := ⟨u.slot, u.bytes⟩

/-- The transaction in a whole payload, if there is room for the slot. -/
def readWire (whole : Bytes) : Option Transaction :=
  if 8 ≤ whole.length then some ⟨u64OfLe (whole.take 8), whole.drop 8⟩ else none

/-- Nothing was sent between the fragments of the transmission. -/
def Transmission.Unbroken (t : Transmission) (sent : Sent) : Prop :=
  t.datagrams <:+: sent.datagrams

/-- All fragments arrive, and nothing was sent between them. -/
def Transmission.Survives (t : Transmission) (sent : Sent) (received : List Bytes) : Prop :=
  (∀ d ∈ t.datagrams, d ∈ received) ∧ t.Unbroken sent

/-- The fragments that arrive, as pieces. -/
def Transmission.arrived (t : Transmission) (received : List Bytes) : List (Piece UInt64 UInt8) :=
  (t.datagrams.filter (fun d => d ∈ received)).map pieceOf

instance (t : Transmission) (sent : Sent) (received : List Bytes) :
    Decidable (t.Survives sent received) :=
  inferInstanceAs (Decidable ((∀ d ∈ t.datagrams, d ∈ received) ∧ t.datagrams <:+: sent.datagrams))

/-! ### The decoder as a receiver -/

theorem updatesOf_cons (p : Pushed) (ps : List Pushed) :
    updatesOf (p :: ps) = updatesOf [p] ++ updatesOf ps := by
  rw [← updatesOf_append, List.singleton_append]

theorem updatesOf_singleton (r : Pushed) : updatesOf [r] = match r.result with
    | .update u => [u]
    | _ => [] := by
  cases hres : r.result with
  | update u | skipped | error e =>
      simp only [updatesOf, List.filterMap_cons, hres, List.filterMap_nil]

/-- What a push returns, when the payload it completes is known. -/
theorem updatesOf_of_delivers (r : Pushed) (now : SystemTime) (delivered : Option Bytes)
    (h : ∀ u, r.result = .update u ↔
      ∃ whole, delivered = some whole ∧ 8 ≤ whole.length ∧ u = updateOf now whole) :
    (updatesOf [r]).map transactionOf = delivered.toList.filterMap readWire := by
  have hnone : (∀ u, r.result ≠ .update u) → updatesOf [r] = [] := by
    intro hr
    rw [updatesOf_singleton]
    cases hres : r.result with
    | update u => exact absurd hres (hr u)
    | skipped | error e => rfl
  cases delivered with
  | none =>
      rw [hnone (fun u hu => ?_)]
      · rfl
      · rcases (h u).mp hu with ⟨_, hw, _⟩
        cases hw
  | some whole =>
      by_cases hlen : 8 ≤ whole.length
      · have hres := (h (updateOf now whole)).mpr ⟨whole, rfl, hlen, rfl⟩
        simp only [updatesOf_singleton, hres, Option.toList_some, List.filterMap_cons, readWire,
          hlen, if_true, List.filterMap_nil]
        rfl
      · rw [hnone (fun u hu => ?_)]
        · simp only [Option.toList_some, List.filterMap_cons, readWire, hlen, if_false,
            List.filterMap_nil, List.map_nil]
        · rcases (h u).mp hu with ⟨_, hw, hlen', _⟩
          cases hw
          exact hlen hlen'

/-- The transactions returned are those in the payloads that the pieces among
    the datagrams deliver. -/
theorem transactions_pushes (arrivals : List Arrival) : ∀ d : StreamDecoder,
    (updatesOf (d.pushes arrivals)).map transactionOf
      = (deliveries (· + 1) d.reasm.view
          ((fragments (arrivals.map (fun a => a.datagram))).map pieceOf)).filterMap readWire := by
  induction arrivals with
  | nil =>
      intro d
      rfl
  | cons a arrivals ih =>
      intro d
      rw [pushes, updatesOf_cons, List.map_append, ih, List.map_cons]
      by_cases hn : Noise a.datagram
      · rcases push_noise d a.now a.datagram hn with ⟨hreasm, hres⟩
        have hnone := updatesOf_of_delivers (d.push a.now a.datagram) a.now none
          (fun u => ⟨fun hu => absurd hu (hres u), fun h => h.elim (fun _ hw => by cases hw.1)⟩)
        rw [hnone, hreasm]
        simp only [fragments, List.filter_cons, hn, not_true_eq_false, decide_false,
          Bool.false_eq_true, if_false, Option.toList_none, List.filterMap_nil, List.nil_append]
      · rcases push_piece_view d a.now a.datagram hn with ⟨hview, hres⟩
        rw [updatesOf_of_delivers _ a.now _ hres, hview]
        simp only [fragments, List.filter_cons, hn, not_false_eq_true, decide_true, if_true,
          List.map_cons, deliveries, List.filterMap_append]

/-- The updates are counted, and the slot of the last of them is kept, from
    wherever the counters stand. -/
theorem stats_pushAll (arrivals : List Arrival) : ∀ d : StreamDecoder,
    (d.pushAll arrivals).stats.messages
      = d.stats.messages + UInt64.ofNat (updatesOf (d.pushes arrivals)).length ∧
    (d.pushAll arrivals).stats.lastSlot
      = ((updatesOf (d.pushes arrivals)).getLast?.map (fun u => u.slot)).getD d.stats.lastSlot := by
  induction arrivals with
  | nil =>
      intro d
      exact ⟨(UInt64.add_zero _).symm, rfl⟩
  | cons a arrivals ih =>
      intro d
      have he := push_effect d a
      rcases ih (d.push a.now a.datagram).decoder with ⟨hmessages, hslot⟩
      rw [pushAll, List.foldl_cons, ← pushAll, pushes, updatesOf_cons]
      refine ⟨?_, ?_⟩
      · rw [hmessages, he.messages, List.length_append, UInt64.ofNat_add, UInt64.add_assoc]
      · rw [hslot, he.lastSlot, List.getLast?_append]
        cases (updatesOf ((d.push a.now a.datagram).decoder.pushes arrivals)).getLast? <;> rfl

/-- What was cut into fragments is read back. -/
theorem readWire_wire (tx : Transaction) : readWire tx.wire = some tx := by
  have hlen : 8 ≤ tx.wire.length := by
    rw [Transaction.wire, List.length_append, length_leBytes]
    omega
  rw [readWire, if_pos hlen]
  rcases updateOf_wire 0 tx with ⟨hslot, hbytes⟩
  rw [show u64OfLe (tx.wire.take 8) = tx.slot from hslot,
    show tx.wire.drop 8 = tx.bytes from hbytes]

/-! ### The stream that was sent -/

/-- A sublist of a list without repetitions is told by its members. -/
theorem eq_filter_of_sublist {α : Type} [DecidableEq α] (l l' : List α) (h : l.Sublist l')
    (hn : l'.Nodup) : l = l'.filter (fun a => a ∈ l) := by
  have hle := h.filter (fun a => decide (a ∈ l))
  rw [List.filter_eq_self.mpr (fun a ha => decide_eq_true ha)] at hle
  refine hle.eq_of_length_le ?_
  refine (List.Nodup.subperm (hn.filter _) (fun a ha => ?_)).length_le
  simpa only [decide_eq_true_eq] using (List.mem_filter.mp ha).2

/-- In a list without repetitions an element stands in one place. -/
theorem split_unique {α : Type} (l a b a' b' : List α) (x : α) (hn : l.Nodup)
    (h : l = a ++ x :: b) (h' : l = a' ++ x :: b') : a = a' ∧ b = b' := by
  have hx := List.nodup_append.mp (h ▸ hn)
  have hbefore : x ∉ a := fun hm => hx.2.2 x hm x List.mem_cons_self rfl
  have hbehind : x ∉ b := (List.nodup_cons.mp hx.2.1).1
  have hcons := (List.append_cons_inj_of_notMem hbefore hbehind).mp (h.symm.trans h')
  exact ⟨hcons.1, hcons.2.2⟩

/-- The stamp of a frame is told by its place. -/
theorem Sent.seq_eq (sent : Sent) (i : Nat) (d : Bytes) (header : FrameHeader)
    (hd : sent.datagrams[i]? = some d) (hh : parseHeader d = .ok header) :
    header.seq = sent.first + UInt64.ofNat i := by
  rcases sent.stamped i d hd with ⟨_, h, hs⟩
  rw [hh] at h
  rwa [Except.ok.inj h]

/-- No two frames that were sent are the same. -/
theorem Sent.nodup (sent : Sent) : sent.datagrams.Nodup := by
  rw [List.nodup_iff_getElem?_ne_getElem?]
  intro i j hlt hj heq
  rw [List.getElem?_eq_getElem hj] at heq
  rcases sent.stamped j _ (List.getElem?_eq_getElem hj) with ⟨header, hh, hs⟩
  rw [sent.seq_eq i _ header heq hh, UInt64.add_right_inj] at hs
  have hnat := congrArg UInt64.toNat hs
  rw [UInt64.toNat_ofNat', UInt64.toNat_ofNat'] at hnat
  have hfew := sent.few
  omega

/-- The transaction frames that were sent. -/
theorem Sent.nodup_flatMap (sent : Sent) :
    (sent.transmissions.flatMap (fun t => t.datagrams)).Nodup := by
  rw [← sent.grouped]
  exact sent.nodup.filter _

theorem Sent.mem_of_mem (sent : Sent) (t : Transmission) (ht : t ∈ sent.transmissions)
    (d : Bytes) (hd : d ∈ t.datagrams) : d ∈ sent.datagrams := by
  have hmem : d ∈ sent.datagrams.filter isTransaction := by
    rw [sent.grouped]
    exact List.mem_flatMap.mpr ⟨t, ht, hd⟩
  exact (List.mem_filter.mp hmem).1

/-- A frame carries the number after another's exactly when it was sent right
    after it. -/
theorem follows_iff (sent : Sent) (d d' : Bytes) (hd : d ∈ sent.datagrams)
    (hd' : d' ∈ sent.datagrams) :
    Follows (· + 1) (pieceOf d) (pieceOf d') ↔
      ∃ before rest, sent.datagrams = before ++ d :: d' :: rest := by
  rcases List.mem_iff_getElem?.mp hd with ⟨j, hj⟩
  rcases List.mem_iff_getElem?.mp hd' with ⟨k, hk⟩
  rcases sent.stamped j d hj with ⟨header, hh, hs⟩
  rcases sent.stamped k d' hk with ⟨header', hh', hs'⟩
  rw [Follows, pieceOf_eq d header hh, pieceOf_eq d' header' hh']
  constructor
  · intro hnext
    have hpos := next_position sent j k d d' header header' hj hk hh hh' hnext
    refine ⟨sent.datagrams.take j, sent.datagrams.drop (k + 1), ?_⟩
    rcases List.getElem?_eq_some_iff.mp hj with ⟨hlt, rfl⟩
    rcases List.getElem?_eq_some_iff.mp hk with ⟨hlt', rfl⟩
    subst hpos
    rw [← List.drop_eq_getElem_cons hlt', ← List.drop_eq_getElem_cons hlt, List.take_append_drop]
  · rintro ⟨before, rest, hsplit⟩
    have hat : sent.datagrams[before.length]? = some d := by
      rw [hsplit, List.getElem?_append_right (Nat.le_refl _), Nat.sub_self, List.getElem?_cons_zero]
    have hat' : sent.datagrams[before.length + 1]? = some d' := by
      rw [hsplit, List.getElem?_append_right (Nat.le_add_right _ 1), Nat.add_sub_cancel_left,
        List.getElem?_cons_succ, List.getElem?_cons_zero]
    rw [sent.seq_eq _ d header hat hh, sent.seq_eq _ d' header' hat' hh', UInt64.ofNat_add,
      ← UInt64.add_assoc]
    rfl

/-- Elements of a list without repetitions, each right behind the one before,
    are a stretch of it. -/
theorem stretch_of_chain {α : Type} (l : List α) (hn : l.Nodup) (seg : List α) (hne : seg ≠ [])
    (hmem : ∀ x ∈ seg, x ∈ l)
    (hchain : seg.IsChain (fun x y => ∃ before rest, l = before ++ x :: y :: rest)) :
    seg <:+: l := by
  induction seg with
  | nil => exact absurd rfl hne
  | cons x seg ih =>
      cases seg with
      | nil =>
          rcases List.append_of_mem (hmem x List.mem_cons_self) with ⟨before, rest, hsplit⟩
          exact ⟨before, rest, by rw [hsplit, List.append_assoc, List.singleton_append]⟩
      | cons y seg =>
          rcases List.isChain_cons_cons.mp hchain with ⟨⟨before, rest, hsplit⟩, hrest⟩
          rcases ih (List.cons_ne_nil _ _) (fun z hz => hmem z (List.mem_cons_of_mem _ hz)) hrest
            with ⟨before', rest', hsplit'⟩
          -- Both decompositions meet at `y`.
          have hmeet := split_unique l (before ++ [x]) rest before' (seg ++ rest') y hn
            (by rw [hsplit, List.append_assoc, List.singleton_append])
            (by rw [← hsplit', List.append_assoc, List.cons_append])
          refine ⟨before, rest', ?_⟩
          rw [hsplit, hmeet.2]
          simp only [List.append_assoc, List.cons_append]

/-- The fragments of a transmission are numbered consecutively exactly when
    nothing was sent between them. -/
theorem unbroken_iff_chain (sent : Sent) (t : Transmission) (ht : t ∈ sent.transmissions) :
    t.Unbroken sent ↔ (t.datagrams.map pieceOf).IsChain (Follows (· + 1)) := by
  have hmem := sent.mem_of_mem t ht
  rw [List.isChain_map, List.IsChain.iff_of_mem_imp (fun d d' hd hd' =>
    follows_iff sent d d' (hmem d hd) (hmem d' hd'))]
  constructor
  · rintro ⟨before, rest, hsplit⟩
    rw [List.isChain_iff_forall_rel_of_append_cons_cons]
    rintro d d' l₁ l₂ heq
    refine ⟨before ++ l₁, l₂ ++ rest, ?_⟩
    rw [← hsplit, heq]
    simp only [List.append_assoc, List.cons_append]
  · intro hchain
    refine stretch_of_chain sent.datagrams sent.nodup t.datagrams (fun hnil => ?_) hmem hchain
    have hsome := t.some_fragments
    rw [hnil, List.length_nil] at hsome
    omega

/-- Behind an element that is not the last stands another. -/
theorem next_of_mem_dropLast {α : Type} (l : List α) (x : α) (h : x ∈ l.dropLast) :
    ∃ u y v, l = u ++ x :: y :: v := by
  rcases List.append_of_mem h with ⟨u, w, hw⟩
  have hne : l ≠ [] := by
    rintro rfl
    cases h
  have hl := List.dropLast_append_getLast hne
  rw [hw, List.append_assoc, List.cons_append] at hl
  cases w with
  | nil => exact ⟨u, l.getLast hne, [], hl.symm⟩
  | cons y w => exact ⟨u, y, w ++ [l.getLast hne], hl.symm⟩

/-- Of two transactions, no fragment but the last of the first is followed by
    one of the second. -/
theorem apart_transmissions (sent : Sent) : sent.transmissions.Pairwise
    (fun t t' => Apart (· + 1) (t.datagrams.map pieceOf) (t'.datagrams.map pieceOf)) := by
  have hnodup := sent.nodup_flatMap
  refine (List.nodup_flatMap.mp hnodup).2.imp_of_mem
    (fun {t t'} ht ht' hdisjoint p hp p' hp' hf => ?_)
  rw [← List.map_dropLast] at hp
  rcases List.mem_map.mp hp with ⟨d, hd, rfl⟩
  rcases List.mem_map.mp hp' with ⟨d', hd', rfl⟩
  rcases next_of_mem_dropLast t.datagrams d hd with ⟨u, e, v, hsplit⟩
  -- The fragment behind `d` in its transaction is the one sent right after it.
  have hmem : d ∈ t.datagrams := t.datagrams.dropLast_subset hd
  rcases (follows_iff sent d d' (sent.mem_of_mem t ht d hmem) (sent.mem_of_mem t' ht' d' hd')).mp
    hf with ⟨before, rest, hadj⟩
  have hfilter := sent.grouped
  have htrans : ∀ x ∈ [d, d'], isTransaction x = true := by
    intro x hx
    rcases List.mem_cons.mp hx with rfl | hx
    · exact isTransaction_of_not_noise x (sent.not_noise t ht x hmem)
    · rw [List.mem_singleton.mp hx]
      exact isTransaction_of_not_noise d' (sent.not_noise t' ht' d' hd')
  rw [hadj, List.filter_append, List.filter_cons_of_pos (htrans d List.mem_cons_self),
    List.filter_cons_of_pos (htrans d' (List.mem_cons_of_mem _ (List.mem_singleton_self d')))]
    at hfilter
  rcases List.append_of_mem ht with ⟨ts, ts', hts⟩
  have hmeet := split_unique _ _ _ (ts.flatMap (fun t => t.datagrams) ++ u)
    (e :: (v ++ ts'.flatMap (fun t => t.datagrams))) d hnodup hfilter.symm (by
      rw [hts, List.flatMap_append, List.flatMap_cons, hsplit]
      simp only [List.append_assoc, List.cons_append])
  obtain rfl := (List.cons.inj hmeet.2).1
  -- So `d'` belongs to both transactions, which have no fragment in common.
  refine hdisjoint (show d' ∈ t.datagrams from ?_) hd'
  rw [hsplit]
  exact List.mem_append_right u (List.mem_cons_of_mem d List.mem_cons_self)

/-- What arrives, sorted by transaction. -/
theorem fragments_flatMap (sent : Sent) (received : List Bytes)
    (h : (fragments received).Sublist sent.datagrams) :
    fragments received
      = sent.transmissions.flatMap (fun t => t.datagrams.filter (fun d => d ∈ received)) := by
  have hself : (fragments received).filter isTransaction = fragments received :=
    List.filter_eq_self.mpr (fun d hd =>
      isTransaction_of_not_noise d ((mem_fragments received d).mp hd).2)
  have hsub := h.filter isTransaction
  rw [hself, sent.grouped] at hsub
  rw [eq_filter_of_sublist _ _ hsub sent.nodup_flatMap, List.filter_flatMap]
  refine List.flatMap_congr (fun t ht => List.filter_congr (fun d hd => ?_))
  simp only [mem_fragments, sent.not_noise t ht d hd, not_false_eq_true, and_true]

/-- The pieces of a transmission arrive intact exactly when it survives. -/
theorem intact_iff (sent : Sent) (received : List Bytes) (t : Transmission)
    (ht : t ∈ sent.transmissions) :
    Intact (· + 1) (t.datagrams.map pieceOf) (t.arrived received) ↔ t.Survives sent received := by
  rw [Intact, Transmission.Survives, unbroken_iff_chain sent t ht]
  refine and_congr_left (fun _ => ?_)
  constructor
  · intro heq
    have hlen := congrArg List.length heq
    rw [Transmission.arrived, List.length_map, List.length_map,
      List.length_filter_eq_length_iff] at hlen
    simpa only [decide_eq_true_eq] using hlen
  · intro hall
    rw [Transmission.arrived, List.filter_eq_self.mpr (fun d hd => decide_eq_true (hall d hd))]

/-- What is returned of a stream that reaches the decoder with losses, and with
    noise mixed in: the transactions that survive, in the order in which they
    were sent. -/
theorem transactions_lossy (sent : Sent) (arrivals : List Arrival)
    (h : (fragments (arrivals.map (fun a => a.datagram))).Sublist sent.datagrams) :
    (updatesOf (new.pushes arrivals)).map transactionOf
      = (sent.transmissions.filter
          (fun t => t.Survives sent (arrivals.map (fun a => a.datagram)))).map (fun t => t.tx) := by
  classical
  have hgroup : ∀ t ∈ sent.transmissions, Group (t.datagrams.map pieceOf) :=
    fun t ht => t.group (sent.not_noise t ht)
  rw [transactions_pushes, fragments_flatMap sent _ h, List.map_flatMap]
  -- The reassembler starts empty, and each transmission is a message that crosses.
  have hdelivered := deliveries_crossings (· + 1) (fun t : Transmission => t.datagrams.map pieceOf)
    (fun t => t.arrived (arrivals.map (fun a => a.datagram))) sent.transmissions hgroup
    (fun t _ => List.filter_sublist.map pieceOf) (apart_transmissions sent) none
    (fun t _ => foreign_none (· + 1) _)
  refine (congrArg (List.filterMap readWire) hdelivered).trans ?_
  rw [List.filterMap_map, List.filter_congr (fun t ht => decide_eq_decide.mpr
    (intact_iff sent (arrivals.map (fun a => a.datagram)) t ht))]
  refine (List.filterMap_congr (fun t ht => ?_)).trans (congrFun List.filterMap_eq_map _)
  have hmem := (List.mem_filter.mp ht).1
  rw [Function.comp_apply, join_pieces t.datagrams (sent.not_noise t hmem), t.payloads,
    readWire_wire]
  rfl

/-- A stream that reaches the decoder with losses, and with noise mixed in:
    the transactions that survive are returned, each once and in the order in
    which they were sent, and the counters say so. -/
theorem lossy_exact (sent : Sent) (arrivals : List Arrival)
    (h : (fragments (arrivals.map (fun a => a.datagram))).Sublist sent.datagrams) :
    let survivors := (sent.transmissions.filter
      (fun t => t.Survives sent (arrivals.map (fun a => a.datagram)))).map (fun t => t.tx)
    (updatesOf (new.pushes arrivals)).map transactionOf = survivors ∧
      (new.pushAll arrivals).stats.messages = UInt64.ofNat survivors.length ∧
      (new.pushAll arrivals).stats.lastSlot
        = (survivors.getLast?.map (fun tx => tx.slot)).getD 0 := by
  intro survivors
  have hupdates : (updatesOf (new.pushes arrivals)).map transactionOf = survivors :=
    transactions_lossy sent arrivals h
  rcases stats_pushAll arrivals new with ⟨hmessages, hslot⟩
  refine ⟨hupdates, ?_, ?_⟩
  · rw [hmessages, ← hupdates, List.length_map]
    exact UInt64.zero_add _
  · rw [hslot, ← hupdates, List.getLast?_map, Option.map_map]
    rfl

/-- Two transactions with an event between them, the first in two fragments. -/
def gapSent : Sent where
  datagrams :=
    [frame msgTransaction 0 2 0 [7, 0, 0],
     frame msgTransaction 1 2 1 [0, 0, 0, 0, 0, 42],
     frame msgEvent 0 1 2 [],
     frame msgTransaction 0 1 3 [8, 0, 0, 0, 0, 0, 0, 0, 43]]
  first := 0
  few := by decide
  stamped := by
    rintro (_ | _ | _ | _ | i) d h
    · cases h
      exact ⟨_, rfl, rfl⟩
    · cases h
      exact ⟨_, rfl, rfl⟩
    · cases h
      exact ⟨_, rfl, rfl⟩
    · cases h
      exact ⟨_, rfl, rfl⟩
    · cases h
  transmissions :=
    [{ tx := ⟨7, [42]⟩
       datagrams :=
        [frame msgTransaction 0 2 0 [7, 0, 0], frame msgTransaction 1 2 1 [0, 0, 0, 0, 0, 42]]
       some_fragments := by decide
       few_fragments := by decide
       numbered := by
        rintro (_ | _ | i) d h
        · cases h
          exact ⟨_, _, rfl, rfl, rfl, rfl⟩
        · cases h
          exact ⟨_, _, rfl, rfl, rfl, rfl⟩
        · cases h
       payloads := rfl },
     { tx := ⟨8, [43]⟩
       datagrams := [frame msgTransaction 0 1 3 [8, 0, 0, 0, 0, 0, 0, 0, 43]]
       some_fragments := by decide
       few_fragments := by decide
       numbered := by
        rintro (_ | i) d h
        · cases h
          exact ⟨_, _, rfl, rfl, rfl, rfl⟩
        · cases h
       payloads := rfl }]
  grouped := rfl

/-- The first fragment is lost, and a stray datagram is mixed in. -/
theorem gapSent_exact :
    (updatesOf (new.pushes
      [⟨0, frame msgTransaction 1 2 1 [0, 0, 0, 0, 0, 42]⟩, ⟨1, [1, 2, 3]⟩,
       ⟨2, frame msgTransaction 0 1 3 [8, 0, 0, 0, 0, 0, 0, 0, 43]⟩])).map transactionOf
      = [⟨8, [43]⟩] :=
  (lossy_exact gapSent _ (by decide)).1.trans rfl

end Codec

end ShredStream
