import ShredStream.Lib.Numeral
import ShredStream.Theory.Frame.Reassembly

/-!
# No Mixtures

A sender numbers its datagrams consecutively and sends the fragments of one
transaction before those of the next. The network may lose, repeat and
reorder what it carries. The decoder has nothing but the header fields to
tell what belongs together.

They are enough. Datagrams delivered with consecutive numbers were adjacent
when they were sent, because fewer than 2^64 were sent and no number occurs
twice (`stretch_of_consecutive`). Adjacent transaction frames that start with
a first fragment and are as many as its count are all the fragments of one
transaction (`group_of_stretch`).

## Main definitions

* `Transmission`: A transaction and the datagrams it is sent in.
* `Sent`: Everything a sender has sent.
* `Sent.Carried`: What a network can make of it.

## Theorems

* `stretch_of_consecutive`: Consecutive numbers are adjacent datagrams.
* `update_of_sent`: An update is a transaction that was sent.
* `wrappedSent_update`: A stream whose numbers wrap.
-/

namespace ShredStream

namespace Codec

open Reassembly StreamDecoder

/-- A transaction on the sender's side. -/
structure Transaction where
  slot : UInt64
  bytes : Bytes

/-- What is cut into fragments: the slot, then the transaction. -/
def Transaction.wire (tx : Transaction) : Bytes := leBytes 8 tx.slot.toNat ++ tx.bytes

/-- A transaction and the 1 to 255 datagrams that carry its fragments, in
    index order and with the right count. -/
structure Transmission where
  tx : Transaction
  datagrams : List Bytes
  some_fragments : 1 ≤ datagrams.length
  few_fragments : datagrams.length ≤ 255
  numbered : ∀ (i : Nat) (d : Bytes), datagrams[i]? = some d →
    ∃ seq, Carries d datagrams.length i seq
  payloads : datagrams.flatMap payload = tx.wire

/-- The datagram is a transaction frame. -/
def isTransaction (datagram : Bytes) : Bool :=
  match parseHeader datagram with
  | .error _ => false
  | .ok header => header.msgType == msgTransaction

/-- The datagrams of a sender: fewer than 2^64 frames with consecutive
    sequence numbers, of which the transaction frames are the fragments of one
    transaction after those of the other. -/
structure Sent where
  datagrams : List Bytes
  first : UInt64
  few : datagrams.length < 2 ^ 64
  stamped : ∀ (i : Nat) (d : Bytes), datagrams[i]? = some d →
    ∃ header, parseHeader d = .ok header ∧ header.seq = first + UInt64.ofNat i
  transmissions : List Transmission
  grouped : datagrams.filter isTransaction = transmissions.flatMap (fun t => t.datagrams)

/-- The network delivers nothing that was not sent. -/
def Sent.Carried (sent : Sent) (arrivals : List Arrival) : Prop :=
  ∀ a ∈ arrivals, a.datagram ∈ sent.datagrams

theorem isTransaction_of_not_noise (d : Bytes) (h : ¬ Noise d) : isTransaction d = true := by
  rcases header_of_not_noise d h with ⟨header, hh⟩
  rw [noise_iff d header hh] at h
  simp only [isTransaction, hh, beq_iff_eq]
  by_contra hne
  exact h (Or.inl hne)

/-- The update of a whole transaction has its slot and its bytes. -/
theorem updateOf_wire (now : SystemTime) (tx : Transaction) :
    (updateOf now tx.wire).slot = tx.slot ∧ (updateOf now tx.wire).bytes = tx.bytes := by
  have hlen := length_leBytes 8 tx.slot.toNat
  refine ⟨?_, ?_⟩
  · rw [updateOf, Transaction.wire, List.take_left' hlen, u64OfLe,
      leNat_leBytes_of_lt 8 tx.slot.toNat (UInt64.toNat_lt tx.slot), UInt64.ofNat_toNat]
  · rw [updateOf, Transaction.wire, List.drop_left' hlen]

/-- The pieces of a transmission are a group. -/
theorem Transmission.group (t : Transmission) (h : ∀ d ∈ t.datagrams, ¬ Noise d) :
    Group (t.datagrams.map pieceOf) := by
  refine ⟨fun hnil => ?_, fun i p hp => ?_⟩
  · have hsome := t.some_fragments
    rw [List.map_eq_nil_iff.mp hnil, List.length_nil] at hsome
    omega
  · rw [List.getElem?_map, Option.map_eq_some_iff] at hp
    rcases hp with ⟨d, hd, rfl⟩
    rcases t.numbered i d hd with ⟨seq, hc⟩
    rw [carries_iff_of_not_noise d (h d (List.mem_of_getElem? hd))] at hc
    rw [List.length_map]
    exact ⟨hc.2.1, hc.1⟩

/-- The datagrams of a transmission are no noise: the index of each is below
    the count of all. -/
theorem Transmission.not_noise (t : Transmission) (d : Bytes) (hd : d ∈ t.datagrams)
    (ht : isTransaction d = true) : ¬ Noise d := by
  rcases List.mem_iff_getElem?.mp hd with ⟨i, hi⟩
  have hlt := (List.getElem?_eq_some_iff.mp hi).1
  rcases t.numbered i d hi with ⟨seq, header, hh, hc, hidx, _⟩
  rw [isTransaction, hh] at ht
  rw [noise_iff d header hh]
  have hm : header.msgType = msgTransaction := by simpa only [beq_iff_eq] using ht
  rintro (hne | h0 | ⟨_, hge⟩)
  · exact hne hm
  · rw [h0, UInt8.toNat_zero] at hc
    omega
  · rw [ge_iff_le, UInt8.le_iff_toNat_le] at hge
    omega

/-- The frame with the number after another's was sent right after it: fewer
    than 2^64 were sent, so no number occurs twice. -/
theorem next_position (sent : Sent) (j k : Nat) (d d' : Bytes) (header header' : FrameHeader)
    (hj : sent.datagrams[j]? = some d) (hk : sent.datagrams[k]? = some d')
    (hh : parseHeader d = .ok header) (hh' : parseHeader d' = .ok header')
    (hnext : header'.seq = header.seq + 1) : k = j + 1 := by
  have hstamp : header.seq = sent.first + UInt64.ofNat j := by
    rcases sent.stamped j d hj with ⟨_, h, hs⟩
    rw [hh] at h
    rwa [Except.ok.inj h]
  have hstamp' : header'.seq = sent.first + UInt64.ofNat k := by
    rcases sent.stamped k d' hk with ⟨_, h, hs⟩
    rw [hh'] at h
    rwa [Except.ok.inj h]
  rw [hstamp, hstamp', UInt64.add_assoc, UInt64.add_right_inj] at hnext
  -- The positions agree modulo 2^64, and both are below it.
  have hnat := congrArg UInt64.toNat hnext
  rw [UInt64.toNat_add, UInt64.toNat_ofNat', UInt64.toNat_ofNat', UInt64.toNat_one] at hnat
  have hlt := (List.getElem?_eq_some_iff.mp hj).1
  have hlt' := (List.getElem?_eq_some_iff.mp hk).1
  have hfew := sent.few
  omega

/-- What stands right before a tail is the last of what precedes it. -/
theorem eq_snoc_of_getElem? {α : Type} (l before tail : List α) (j : Nat) (x : α)
    (hsplit : l = before ++ tail) (hlen : before.length = j + 1) (hx : l[j]? = some x) :
    ∃ before', before = before' ++ [x] := by
  rcases List.eq_nil_or_concat before with rfl | ⟨before', y, rfl⟩
  · rw [List.length_nil] at hlen
    omega
  rw [List.concat_eq_append, List.length_append, List.length_singleton,
    Nat.add_right_cancel_iff] at hlen
  rw [hsplit, List.concat_eq_append, List.append_assoc, ← hlen,
    List.getElem?_append_right (Nat.le_refl _), Nat.sub_self, List.singleton_append,
    List.getElem?_cons_zero, Option.some.injEq] at hx
  rw [List.concat_eq_append, hx]
  exact ⟨before', rfl⟩

/-- Datagrams with consecutive sequence numbers were adjacent when sent. -/
theorem stretch_of_consecutive (sent : Sent) (set : List Bytes) (s : UInt64)
    (hne : set ≠ []) (hmem : ∀ d ∈ set, d ∈ sent.datagrams)
    (hseq : ∀ (i : Nat) (d : Bytes), set[i]? = some d →
      ∃ header, parseHeader d = .ok header ∧ header.seq = s + UInt64.ofNat i) :
    ∃ before rest, sent.datagrams = before ++ set ++ rest := by
  induction set generalizing s with
  | nil => exact absurd rfl hne
  | cons d set ih =>
      cases set with
      | nil =>
          rcases List.append_of_mem (hmem d List.mem_cons_self) with ⟨before, rest, hsplit⟩
          exact ⟨before, rest, by rw [hsplit, List.append_assoc, List.singleton_append]⟩
      | cons d' set =>
          -- From `d'` on the datagrams were adjacent, by induction.
          have hlater : ∀ (i : Nat) (x : Bytes), (d' :: set)[i]? = some x →
              ∃ header, parseHeader x = .ok header ∧ header.seq = s + 1 + UInt64.ofNat i := by
            intro i x hx
            rcases hseq (i + 1) x (by rw [List.getElem?_cons_succ, hx]) with ⟨header, hh, hs⟩
            refine ⟨header, hh, ?_⟩
            rw [hs, UInt64.add_assoc, UInt64.add_comm 1, UInt64.ofNat_add]
            rfl
          rcases ih (s + 1) (List.cons_ne_nil _ _) (fun x hx => hmem x (List.mem_cons_of_mem _ hx))
            hlater with ⟨before, rest, hsplit⟩
          rw [List.append_assoc] at hsplit
          have hd' : sent.datagrams[before.length]? = some d' := by
            rw [hsplit, List.getElem?_append_right (Nat.le_refl _), Nat.sub_self,
              List.cons_append, List.getElem?_cons_zero]
          -- `d'` has the number after `d`, so it stands right behind it.
          rcases List.mem_iff_getElem?.mp (hmem d List.mem_cons_self) with ⟨j, hj⟩
          rcases hseq 0 d rfl with ⟨header, hh, hs⟩
          rcases hlater 0 d' rfl with ⟨header', hh', hs'⟩
          have hnext : header'.seq = header.seq + 1 := by
            rw [hs, hs', UInt64.add_assoc, UInt64.add_comm 1, UInt64.add_assoc]
          have hpos := next_position sent j before.length d d' header header' hj hd' hh hh' hnext
          rcases eq_snoc_of_getElem? _ before _ j d hsplit hpos hj with ⟨before', rfl⟩
          exact ⟨before', rest, by rw [hsplit]; simp only [List.append_assoc, List.cons_append,
            List.nil_append]⟩

/-- Every transaction frame that was sent belongs to a transmission. -/
theorem mem_transmission (sent : Sent) (d : Bytes) (hd : d ∈ sent.datagrams)
    (h : ¬ Noise d) : ∃ t ∈ sent.transmissions, d ∈ t.datagrams := by
  have hmem : d ∈ sent.datagrams.filter isTransaction :=
    List.mem_filter.mpr ⟨hd, isTransaction_of_not_noise d h⟩
  rwa [sent.grouped, List.mem_flatMap] at hmem

/-- No datagram of a transmission is noise. -/
theorem Sent.not_noise (sent : Sent) (t : Transmission) (ht : t ∈ sent.transmissions) :
    ∀ d ∈ t.datagrams, ¬ Noise d := by
  intro d hd
  have hmem : d ∈ sent.datagrams.filter isTransaction := by
    rw [sent.grouped]
    exact List.mem_flatMap.mpr ⟨t, ht, hd⟩
  exact t.not_noise d hd (List.mem_filter.mp hmem).2

/-- A single datagram with all of a transaction is a transmission. -/
theorem transmission_of_lone (sent : Sent) (d : Bytes) (hd : d ∈ sent.datagrams) (h : ¬ Noise d)
    (hc : (pieceOf d).count = 1) : ∃ t ∈ sent.transmissions, t.datagrams = [d] := by
  rcases mem_transmission sent d hd h with ⟨t, ht, hdt⟩
  rcases List.mem_iff_getElem?.mp hdt with ⟨i, hi⟩
  rcases t.numbered i d hi with ⟨seq, hcar⟩
  have hlen : 1 = t.datagrams.length := by
    rw [← hc]
    exact ((carries_iff_of_not_noise d h _ _ _).mp hcar).1
  rcases List.length_eq_one_iff.mp hlen.symm with ⟨x, hx⟩
  rw [hx, List.mem_singleton] at hdt
  exact ⟨t, ht, by rw [hx, hdt]⟩

theorem whole_of_lone (sent : Sent) (d : Bytes) (hd : d ∈ sent.datagrams) (h : ¬ Noise d)
    (hc : (pieceOf d).count = 1) : ∃ t ∈ sent.transmissions, payload d = t.tx.wire := by
  rcases transmission_of_lone sent d hd h hc with ⟨t, ht, hlone⟩
  exact ⟨t, ht, by rw [← t.payloads, hlone, List.flatMap_singleton]⟩

/-- Adjacent transaction frames that form a complete set are a transmission. -/
theorem transmission_of_stretch (sent : Sent) (set before rest : List Bytes) (s : UInt64)
    (hsplit : sent.datagrams = before ++ set ++ rest) (h : ∀ d ∈ set, ¬ Noise d)
    (h2 : 2 ≤ set.length) (hord : InOrder (· + 1) set.length s (set.map pieceOf)) :
    ∃ t ∈ sent.transmissions, t.datagrams.map pieceOf = set.map pieceOf := by
  have hgroups : (sent.transmissions.map (fun t => t.datagrams.map pieceOf)).flatten
      = (before.filter isTransaction).map pieceOf ++ set.map pieceOf ++
        (rest.filter isTransaction).map pieceOf := by
    have hset : set.filter isTransaction = set :=
      List.filter_eq_self.mpr (fun d hd => isTransaction_of_not_noise d (h d hd))
    rw [← List.flatMap_def, ← List.map_flatMap, ← sent.grouped, hsplit, List.filter_append,
      List.filter_append, hset, List.map_append, List.map_append]
  cases set with
  | nil =>
      simp only [List.length_nil] at h2
      omega
  | cons d set =>
      -- The first of the set carries index 0 and the length of the set.
      have hd := hord 0 (pieceOf d) rfl
      have hin := group_of_stretch _ (fun g hg => by
          rcases List.mem_map.mp hg with ⟨t, ht, rfl⟩
          exact t.group (sent.not_noise t ht)) _ _ _ hgroups (pieceOf d) rfl hd.2.1
        (by rw [hd.1, List.length_map])
      exact List.mem_map.mp hin

theorem whole_of_stretch (sent : Sent) (set before rest : List Bytes) (s : UInt64)
    (hsplit : sent.datagrams = before ++ set ++ rest) (h : ∀ d ∈ set, ¬ Noise d)
    (h2 : 2 ≤ set.length) (hord : InOrder (· + 1) set.length s (set.map pieceOf)) :
    ∃ t ∈ sent.transmissions, set.flatMap payload = t.tx.wire := by
  rcases transmission_of_stretch sent set before rest s hsplit h h2 hord with ⟨t, ht, heq⟩
  refine ⟨t, ht, ?_⟩
  rw [← join_pieces set h, ← heq, join_pieces t.datagrams (sent.not_noise t ht), t.payloads]

/-- A whole payload made of datagrams that were sent is one transaction. -/
theorem whole_of_sent (sent : Sent) (received : List Bytes)
    (hmem : ∀ d ∈ received, d ∈ sent.datagrams) (whole : Bytes)
    (h : Whole (· + 1) ((fragments received).map pieceOf) whole) :
    ∃ t ∈ sent.transmissions, whole = t.tx.wire := by
  rcases h with ⟨older', ps, hsplit, rfl, hwhole⟩
  rcases List.map_eq_append_iff.mp hsplit with ⟨older, set, heq, rfl, rfl⟩
  have hset : ∀ d ∈ set, d ∈ sent.datagrams ∧ ¬ Noise d := by
    intro d hd
    refine ⟨hmem d ?_, not_noise_of_split received older set heq d hd⟩
    refine ((mem_fragments received d).mp ?_).1
    rw [heq]
    exact List.mem_append_right older hd
  rw [join_pieces set (fun d hd => (hset d hd).2)]
  rcases hwhole with ⟨p, hp, hcount⟩ | ⟨h2, s, hord⟩
  · rcases List.map_eq_singleton_iff.mp hp with ⟨d, rfl, rfl⟩
    have hd := hset d (List.mem_singleton_self d)
    rw [List.flatMap_singleton]
    exact whole_of_lone sent d hd.1 hd.2 hcount
  · rw [List.length_map] at h2 hord
    have hne : set ≠ [] := by
      rintro rfl
      simp only [List.length_nil] at h2
      omega
    -- The numbers put the set in one stretch, and the stretch is one transaction.
    rcases stretch_of_consecutive sent set s hne (fun d hd => (hset d hd).1) (fun i d hd => by
      rcases (inOrder_pieces_iff set (fun d hd => (hset d hd).2) _ s).mp hord i d hd with
        ⟨header, hh, _, _, hs⟩
      exact ⟨header, hh, hs⟩) with ⟨before, rest, hstretch⟩
    exact whole_of_stretch sent set before rest s hstretch (fun d hd => (hset d hd).2) h2 hord

/-- Whatever a network makes of what was sent, an update the decoder returns
    is one of the transactions that were sent. -/
theorem update_of_sent (sent : Sent) (arrivals : List Arrival) (a : Arrival)
    (u : TransactionUpdate) (hcarried : sent.Carried (arrivals ++ [a]))
    (hpush : ((StreamDecoder.new.pushAll arrivals).push a.now a.datagram).result = .update u) :
    ∃ t ∈ sent.transmissions, u.slot = t.tx.slot ∧ u.bytes = t.tx.bytes := by
  rcases (push_whole_iff arrivals a.now a.datagram u).mp hpush with
    ⟨_, whole, hwhole, _, rfl⟩
  have hmem : ∀ d ∈ arrivals.map (fun a => a.datagram) ++ [a.datagram], d ∈ sent.datagrams := by
    intro d hd
    rw [← List.map_singleton, ← List.map_append, List.mem_map] at hd
    rcases hd with ⟨b, hb, rfl⟩
    exact hcarried b hb
  rcases whole_of_sent sent _ hmem whole hwhole with ⟨t, ht, rfl⟩
  exact ⟨t, ht, updateOf_wire a.now t.tx⟩

/-- A frame as a sender writes it. -/
def frame (msgType index count : UInt8) (seq : UInt64) (body : Bytes) : Bytes :=
  [0xE7, 0x5A, frameVersion, msgType, 0, index, count, 0] ++ leBytes 8 seq.toNat ++ body

/-- A receiver reads the header that was written. -/
theorem parseHeader_frame (msgType index count : UInt8) (seq : UInt64) (body : Bytes) :
    parseHeader (frame msgType index count seq body)
        = .ok ⟨frameVersion, msgType, 0, index, count, seq⟩ ∧
      payload (frame msgType index count seq body) = body := by
  have hlen := length_leBytes 8 seq.toNat
  have hlong : ¬ (frame msgType index count seq body).length < frameHeaderLen := by
    simp only [frame, List.length_append, hlen, List.length_cons, List.length_nil, frameHeaderLen]
    omega
  have hseq : u64OfLe (((frame msgType index count seq body).drop 8).take 8) = seq := by
    change u64OfLe ((leBytes 8 seq.toNat ++ body).take 8) = seq
    rw [List.take_left' hlen, u64OfLe, leNat_leBytes_of_lt 8 seq.toNat (UInt64.toNat_lt seq),
      UInt64.ofNat_toNat]
  have hmagic : leNat ((frame msgType index count seq body).take 2) = frameMagic := by
    change leNat [0xE7, 0x5A] = frameMagic
    decide
  have hversion : (frame msgType index count seq body).getD 2 0 = frameVersion := rfl
  refine ⟨?_, ?_⟩
  · rw [parseHeader, if_neg hlong, if_neg (not_not.mpr hmagic), if_neg (not_not.mpr hversion), hseq]
    rfl
  · rw [payload, frame]
    exact List.drop_left' (by rw [List.length_append, hlen]; rfl)

/-- A transaction in two fragments, sent after an event; the sequence number
    wraps between the fragments. -/
def wrappedSent : Sent where
  datagrams :=
    [frame msgEvent 0 1 0xFFFFFFFFFFFFFFFE [],
     frame msgTransaction 0 2 0xFFFFFFFFFFFFFFFF [7, 0, 0],
     frame msgTransaction 1 2 0 [0, 0, 0, 0, 0, 42]]
  first := 0xFFFFFFFFFFFFFFFE
  few := by decide
  stamped := by
    rintro (_ | _ | _ | i) d h
    · cases h
      exact ⟨_, rfl, rfl⟩
    · cases h
      exact ⟨_, rfl, rfl⟩
    · cases h
      exact ⟨_, rfl, rfl⟩
    · cases h
  transmissions :=
    [{ tx := ⟨7, [42]⟩
       datagrams :=
        [frame msgTransaction 0 2 0xFFFFFFFFFFFFFFFF [7, 0, 0],
         frame msgTransaction 1 2 0 [0, 0, 0, 0, 0, 42]]
       some_fragments := by decide
       few_fragments := by decide
       numbered := by
        rintro (_ | _ | i) d h
        · cases h
          exact ⟨_, _, rfl, rfl, rfl, rfl⟩
        · cases h
          exact ⟨_, _, rfl, rfl, rfl, rfl⟩
        · cases h
       payloads := rfl }]
  grouped := rfl

/-- The fragments of `wrappedSent` delivered out of order at first, with one
    of them repeated, and then in order. -/
theorem wrappedSent_update : ∃ t ∈ wrappedSent.transmissions,
    (7 : UInt64) = t.tx.slot ∧ [42] = t.tx.bytes := by
  refine update_of_sent wrappedSent
    [⟨0, frame msgTransaction 1 2 0 [0, 0, 0, 0, 0, 42]⟩,
     ⟨0, frame msgTransaction 0 2 0xFFFFFFFFFFFFFFFF [7, 0, 0]⟩,
     ⟨1, frame msgTransaction 0 2 0xFFFFFFFFFFFFFFFF [7, 0, 0]⟩]
    ⟨2, frame msgTransaction 1 2 0 [0, 0, 0, 0, 0, 42]⟩
    ⟨7, [42], [], [], none, 2⟩ ?_ rfl
  rintro b hb
  simp only [List.cons_append, List.nil_append, List.mem_cons, List.not_mem_nil, or_false] at hb
  rcases hb with rfl | rfl | rfl | rfl <;>
    simp only [wrappedSent, List.mem_cons, true_or, or_true]

end Codec

end ShredStream
