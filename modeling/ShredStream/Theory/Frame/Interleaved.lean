import Mathlib.Algebra.BigOperators.Ring.List
import ShredStream.Theory.Frame.Malformed

/-!
# Events Between Fragments

A sender numbers all its datagrams, whatever their type. The decoder passes
over a frame of another type without looking at its number, and then asks of
a fragment that its number be the one after that of the fragment before. Both
cannot be right: an event between two fragments takes a number, and the
fragment behind it no longer follows.

So a transaction survives the events sent between its fragments exactly when
none of the gaps moves the numbers, which on 64-bit numbers means that each
gap holds a multiple of 2^64 events.

## Main definitions

* `Later`: A later fragment and the events in front of it.
* `Interleaved`: A transaction sent in fragments with events in between.
* `skippedBefore`: The events sent before a fragment.

## Theorems

* `getElem?_datagramsFrom`: Where a fragment stands among the datagrams.
* `Interleaved.consecutive_iff`: When the fragments' numbers are consecutive.
* `interleaved_iff`: When the last fragment completes the transaction.
* `eventBetween_lost`: A transaction that is lost.
-/

namespace ShredStream

namespace Codec

open Reassembly StreamDecoder

/-- A later fragment, and the events sent in front of it. -/
structure Later where
  events : List Bytes
  fragment : Bytes

/-- Everything that is sent, in order. -/
def datagramsFrom (first : Bytes) (later : List Later) : List Bytes :=
  first :: later.flatMap (fun l => l.events ++ [l.fragment])

/-- The fragments alone. -/
def fragmentsFrom (first : Bytes) (later : List Later) : List Bytes :=
  first :: later.map (fun l => l.fragment)

/-- The events sent before the fragment with this index. -/
def skippedBefore (later : List Later) (i : Nat) : Nat :=
  ((later.map (fun l => l.events.length)).take i).sum

/-- A transaction sent in 2 to 255 fragments with any number of events between
    them. The datagrams have consecutive sequence numbers, whatever they
    carry. -/
structure Interleaved where
  tx : Transaction
  start : UInt64
  first : Bytes
  later : List Later
  some_later : later ≠ []
  few_later : later.length < 255
  numbered : ∀ (i : Nat) (d : Bytes), (datagramsFrom first later)[i]? = some d →
    ∃ header, parseHeader d = .ok header ∧ header.seq = start + UInt64.ofNat i
  indexed : ∀ (i : Nat) (d : Bytes), (fragmentsFrom first later)[i]? = some d →
    ∃ header, parseHeader d = .ok header ∧ header.msgType = msgTransaction ∧
      header.fragCount.toNat = later.length + 1 ∧ header.fragIndex.toNat = i
  events : ∀ l ∈ later, ∀ d ∈ l.events,
    ∃ header, parseHeader d = .ok header ∧ header.msgType = msgEvent
  payloads : (fragmentsFrom first later).flatMap payload = tx.wire

theorem datagramsFrom_cons (first : Bytes) (l : Later) (later : List Later) :
    datagramsFrom first (l :: later) = first :: (l.events ++ datagramsFrom l.fragment later) := by
  simp only [datagramsFrom, List.flatMap_cons, List.append_assoc, List.singleton_append]

@[simp] theorem length_fragmentsFrom (first : Bytes) (later : List Later) :
    (fragmentsFrom first later).length = later.length + 1 := by
  rw [fragmentsFrom, List.length_cons, List.length_map]

theorem skippedBefore_cons (l : Later) (later : List Later) (i : Nat) :
    skippedBefore (l :: later) (i + 1) = l.events.length + skippedBefore later i := by
  simp only [skippedBefore, List.map_cons, List.take_succ_cons, List.sum_cons]

/-- A fragment stands behind the fragments and the events sent before it. -/
theorem getElem?_datagramsFrom (first : Bytes) (later : List Later) (i : Nat) :
    (datagramsFrom first later)[i + skippedBefore later i]? = (fragmentsFrom first later)[i]? := by
  induction later generalizing first i with
  | nil =>
      have hnone : skippedBefore [] i = 0 := by
        rw [skippedBefore, List.map_nil, List.take_nil, List.sum_nil]
      rw [hnone]
      rfl
  | cons l later ih =>
      cases i with
      | zero => rfl
      | succ i =>
          have hpos : i + 1 + (l.events.length + skippedBefore later i)
              = l.events.length + (i + skippedBefore later i) + 1 := by omega
          rw [datagramsFrom_cons, skippedBefore_cons, hpos, List.getElem?_cons_succ,
            List.getElem?_append_right (Nat.le_add_right _ _), Nat.add_sub_cancel_left, ih]
          rfl

theorem length_datagramsFrom (first : Bytes) (later : List Later) :
    (datagramsFrom first later).length = later.length + skippedBefore later later.length + 1 := by
  induction later generalizing first with
  | nil => rfl
  | cons l later ih =>
      rw [datagramsFrom_cons, List.length_cons, List.length_append, ih, List.length_cons,
        skippedBefore_cons]
      omega

/-- A fragment is sent last. -/
theorem last_fragment (first d : Bytes) (later : List Later) (before : List Bytes)
    (h : before ++ [d] = datagramsFrom first later) :
    (fragmentsFrom first later)[later.length]? = some d := by
  have hlen := congrArg List.length h
  rw [List.length_append, List.length_singleton, length_datagramsFrom,
    Nat.add_right_cancel_iff] at hlen
  rw [← getElem?_datagramsFrom, ← hlen, ← h, List.getElem?_concat_length]

/-- All the partial sums are multiples exactly when all the terms are. -/
theorem dvd_sum_take_iff (m : Nat) (ns : List Nat) :
    (∀ i ≤ ns.length, m ∣ (ns.take i).sum) ↔ ∀ n ∈ ns, m ∣ n := by
  constructor
  · intro h n hn
    rcases List.mem_iff_getElem.mp hn with ⟨i, hi, rfl⟩
    have hnext := h (i + 1) hi
    rw [List.take_succ_eq_append_getElem hi, List.sum_append, List.sum_singleton] at hnext
    exact (Nat.dvd_add_right (h i (Nat.le_of_lt hi))).mp hnext
  · intro h i _
    exact List.dvd_sum (fun n hn => h n (List.mem_of_mem_take hn))

theorem ofNat_eq_zero_iff (n : Nat) : UInt64.ofNat n = 0 ↔ 2 ^ 64 ∣ n := by
  rw [← UInt64.toNat_inj, UInt64.toNat_ofNat', UInt64.toNat_zero, Nat.dvd_iff_mod_eq_zero]

namespace Interleaved

variable (t : Interleaved)

/-- An event is noise to the reassembler. -/
theorem noise_event (l : Later) (hl : l ∈ t.later) (d : Bytes) (hd : d ∈ l.events) : Noise d := by
  rcases t.events l hl d hd with ⟨header, hh, hm⟩
  rw [noise_iff d header hh]
  left
  rw [hm]
  decide

/-- A fragment is not: its index is below its count. -/
theorem not_noise_fragment (i : Nat) (d : Bytes)
    (hd : (fragmentsFrom t.first t.later)[i]? = some d) : ¬ Noise d := by
  rcases t.indexed i d hd with ⟨header, hh, hm, hc, hi⟩
  have hlt := (List.getElem?_eq_some_iff.mp hd).1
  rw [length_fragmentsFrom] at hlt
  rw [noise_iff d header hh]
  rintro (hne | h0 | ⟨_, hge⟩)
  · exact hne hm
  · rw [h0, UInt8.toNat_zero] at hc
    omega
  · rw [ge_iff_le, UInt8.le_iff_toNat_le] at hge
    omega

/-- The reassembler sees the fragments and nothing else. -/
theorem fragments_datagrams :
    fragments (datagramsFrom t.first t.later) = fragmentsFrom t.first t.later := by
  have hfrag : ∀ d ∈ fragmentsFrom t.first t.later, ¬ Noise d := by
    intro d hd
    rcases List.mem_iff_getElem?.mp hd with ⟨i, hi⟩
    exact t.not_noise_fragment i d hi
  rw [fragmentsFrom, List.forall_mem_cons, List.forall_mem_map] at hfrag
  have hlater : t.later.flatMap (fun l => fragments (l.events ++ [l.fragment]))
      = t.later.flatMap (fun l => [l.fragment]) := by
    refine List.flatMap_congr (fun l hl => ?_)
    have hnone : fragments l.events = [] :=
      List.filter_eq_nil_iff.mpr (fun d hd hn => of_decide_eq_true hn (t.noise_event l hl d hd))
    rw [fragments_snoc _ _ (hfrag.2 l hl), hnone, List.nil_append]
  have hcons : fragments (datagramsFrom t.first t.later)
      = t.first :: t.later.flatMap (fun l => fragments (l.events ++ [l.fragment])) := by
    simp only [fragments, datagramsFrom, List.filter_cons, hfrag.1, not_false_eq_true,
      decide_true, if_true, List.filter_flatMap]
  rw [hcons, hlater, fragmentsFrom, List.map_eq_flatMap]

/-- A fragment's number counts the events before it. -/
theorem carries (i : Nat) (d : Bytes) (hd : (fragmentsFrom t.first t.later)[i]? = some d) :
    Carries d (t.later.length + 1) i (t.start + UInt64.ofNat (i + skippedBefore t.later i)) := by
  rcases t.indexed i d hd with ⟨header, hh, _, hc, hi⟩
  rcases t.numbered _ d ((getElem?_datagramsFrom t.first t.later i).trans hd) with
    ⟨header', hh', hs⟩
  rw [hh, Except.ok.injEq] at hh'
  exact ⟨header, hh, hc, hi, by rw [hh', hs]⟩

/-- The fragments have consecutive numbers exactly when no gap moves them. -/
theorem consecutive_iff : (∃ s, ∀ (i : Nat) (d : Bytes),
      (fragmentsFrom t.first t.later)[i]? = some d →
        Carries d (t.later.length + 1) i (s + UInt64.ofNat i)) ↔
    ∀ l ∈ t.later, 2 ^ 64 ∣ l.events.length := by
  have hgaps := dvd_sum_take_iff (2 ^ 64) (t.later.map (fun l => l.events.length))
  rw [List.length_map, List.forall_mem_map] at hgaps
  rw [← hgaps]
  constructor
  · rintro ⟨s, hs⟩ i hi
    have hseq : ∀ j ≤ t.later.length,
        s + UInt64.ofNat j = t.start + UInt64.ofNat (j + skippedBefore t.later j) := by
      intro j hj
      have hlt : j < (fragmentsFrom t.first t.later).length := by
        rw [length_fragmentsFrom]
        omega
      have hd := List.getElem?_eq_getElem hlt
      rcases hs j _ hd with ⟨header, hh, _, _, hseq⟩
      rcases t.carries j _ hd with ⟨header', hh', _, _, hseq'⟩
      rw [hh, Except.ok.injEq] at hh'
      rw [← hseq, ← hseq', hh']
    -- The first fragment fixes the start, and the others the sums of the gaps.
    have hstart : s = t.start := by
      simpa only [skippedBefore, List.take_zero, List.sum_nil, Nat.add_zero, UInt64.add_left_inj]
        using hseq 0 (Nat.zero_le _)
    have hi' := hseq i hi
    rw [hstart, UInt64.ofNat_add, ← UInt64.add_assoc, UInt64.left_eq_add, ofNat_eq_zero_iff] at hi'
    exact hi'
  · intro h
    refine ⟨t.start, fun i d hd => ?_⟩
    have hc := t.carries i d hd
    have hi := (List.getElem?_eq_some_iff.mp hd).1
    rw [length_fragmentsFrom] at hi
    have hzero : UInt64.ofNat (skippedBefore t.later i) = 0 :=
      (ofNat_eq_zero_iff _).mpr (h i (Nat.le_of_lt_succ hi))
    rwa [UInt64.ofNat_add, hzero, UInt64.add_zero] at hc

/-- The last fragment delivers the transaction exactly when the fragments'
    numbers are consecutive. -/
theorem delivers_iff (earlier before : List Bytes) (d whole : Bytes)
    (h : before ++ [d] = datagramsFrom t.first t.later) :
    Delivers (earlier ++ before) d whole ↔ whole = t.tx.wire ∧
      ∃ s, ∀ (i : Nat) (d : Bytes), (fragmentsFrom t.first t.later)[i]? = some d →
        Carries d (t.later.length + 1) i (s + UInt64.ofNat i) := by
  have hd := last_fragment t.first d t.later before h
  have hcount : ∀ count index seq, Carries d count index seq → count = t.later.length + 1 := by
    rintro count index seq ⟨header, hh, hc, _⟩
    rcases t.carries _ d hd with ⟨header', hh', hc', _⟩
    rw [hh, Except.ok.injEq] at hh'
    rw [← hc, hh', hc']
  have hfragments : fragments (earlier ++ before ++ [d])
      = fragments earlier ++ fragmentsFrom t.first t.later := by
    rw [List.append_assoc, h, ← t.fragments_datagrams, fragments, List.filter_append]
    rfl
  constructor
  · rintro (⟨⟨index, seq, hc⟩, _⟩ | ⟨older, set, s, hsplit, h2, hc, rfl⟩)
    · -- There are at least two fragments.
      have hone := hcount 1 index seq hc
      exact absurd (List.length_eq_zero_iff.mp (by omega)) t.some_later
    · -- The set ends with `d`, so it has as many datagrams as there are fragments.
      have hlast : ∃ set', set = set' ++ [d] := by
        rcases List.eq_nil_or_concat set with rfl | ⟨set', x, rfl⟩
        · rw [List.length_nil] at h2
          omega
        rw [fragments_snoc _ d (t.not_noise_fragment _ d hd), List.concat_eq_append,
          ← List.append_assoc] at hsplit
        rw [List.concat_eq_append, List.singleton_inj.mp (List.append_inj' hsplit rfl).2]
        exact ⟨set', rfl⟩
      rcases hlast with ⟨set', hset⟩
      have hlen : set.length = t.later.length + 1 :=
        hcount _ _ _ (hc set'.length d (by rw [hset, List.getElem?_concat_length]))
      rw [hfragments] at hsplit
      have heq := (List.append_inj' hsplit (by rw [length_fragmentsFrom, hlen])).2
      rw [hlen, ← heq] at hc
      exact ⟨by rw [← heq, t.payloads], s, hc⟩
  · rintro ⟨rfl, s, hs⟩
    refine Or.inr ⟨fragments earlier, fragmentsFrom t.first t.later, s, hfragments, ?_, ?_,
      t.payloads.symm⟩
    · have hpos := List.length_pos_iff.mpr t.some_later
      rw [length_fragmentsFrom]
      omega
    · rw [length_fragmentsFrom]
      exact hs

end Interleaved

/-- After any datagrams, the last fragment returns the transaction exactly
    when every gap between two fragments holds a multiple of 2^64 events. -/
theorem interleaved_iff (t : Interleaved) (earlier arrivals : List Arrival) (a : Arrival)
    (h : (arrivals ++ [a]).map (fun a => a.datagram) = datagramsFrom t.first t.later) :
    (∃ u, (((new.pushAll earlier).pushAll arrivals).push a.now a.datagram).result = .update u ∧
      u.slot = t.tx.slot ∧ u.bytes = t.tx.bytes) ↔
    ∀ l ∈ t.later, 2 ^ 64 ∣ l.events.length := by
  rw [List.map_append, List.map_singleton] at h
  have hpushed : (new.pushAll earlier).pushAll arrivals = new.pushAll (earlier ++ arrivals) := by
    simp only [pushAll, List.foldl_append]
  have hd : (fragmentsFrom t.first t.later)[t.later.length]? = some a.datagram :=
    last_fragment t.first a.datagram t.later _ h
  have hlong : 8 ≤ t.tx.wire.length := by
    rw [Transaction.wire, List.length_append, length_leBytes]
    omega
  rw [hpushed, ← t.consecutive_iff]
  simp only [push_update_iff, List.map_append, t.delivers_iff _ _ _ _ h,
    t.not_noise_fragment _ _ hd, not_false_eq_true, true_and]
  constructor
  · rintro ⟨u, ⟨whole, ⟨_, hs⟩, _⟩, _⟩
    exact hs
  · intro hs
    exact ⟨updateOf a.now t.tx.wire, ⟨t.tx.wire, ⟨rfl, hs⟩, hlong, rfl⟩, updateOf_wire a.now t.tx⟩

/-- A transaction in two fragments with an event between them. -/
def eventBetween : Interleaved where
  tx := ⟨7, [42]⟩
  start := 10
  first := frame msgTransaction 0 2 10 [7, 0, 0]
  later := [⟨[frame msgEvent 0 1 11 []], frame msgTransaction 1 2 12 [0, 0, 0, 0, 0, 42]⟩]
  some_later := List.cons_ne_nil _ _
  few_later := by decide
  numbered := by
    rintro (_ | _ | _ | i) d h
    · cases h
      exact ⟨_, rfl, rfl⟩
    · cases h
      exact ⟨_, rfl, rfl⟩
    · cases h
      exact ⟨_, rfl, rfl⟩
    · cases h
  indexed := by
    rintro (_ | _ | i) d h
    · cases h
      exact ⟨_, rfl, rfl, rfl, rfl⟩
    · cases h
      exact ⟨_, rfl, rfl, rfl, rfl⟩
    · cases h
  events := by
    intro l hl d hd
    rw [List.mem_singleton] at hl
    rw [hl, List.mem_singleton] at hd
    rw [hd]
    exact ⟨_, rfl, rfl⟩
  payloads := rfl

/-- All three datagrams arrive in order, and the second fragment is refused. -/
theorem eventBetween_lost : ∃ arrivals a,
    (arrivals ++ [a]).map (fun a => a.datagram)
        = datagramsFrom eventBetween.first eventBetween.later ∧
      (((new.pushAll []).pushAll arrivals).push a.now a.datagram).result = .error .badFragment ∧
      ¬ ∃ u, (((new.pushAll []).pushAll arrivals).push a.now a.datagram).result = .update u ∧
        u.slot = eventBetween.tx.slot ∧ u.bytes = eventBetween.tx.bytes := by
  refine ⟨[⟨1, eventBetween.first⟩, ⟨2, frame msgEvent 0 1 11 []⟩],
    ⟨3, frame msgTransaction 1 2 12 [0, 0, 0, 0, 0, 42]⟩, rfl, rfl, ?_⟩
  rintro ⟨u, hu, _⟩
  cases hu

/-- The same transaction with nothing between its fragments; the sequence
    number wraps. -/
def nothingBetween : Interleaved where
  tx := ⟨7, [42]⟩
  start := 0xFFFFFFFFFFFFFFFF
  first := frame msgTransaction 0 2 0xFFFFFFFFFFFFFFFF [7, 0, 0]
  later := [⟨[], frame msgTransaction 1 2 0 [0, 0, 0, 0, 0, 42]⟩]
  some_later := List.cons_ne_nil _ _
  few_later := by decide
  numbered := by
    rintro (_ | _ | i) d h
    · cases h
      exact ⟨_, rfl, rfl⟩
    · cases h
      exact ⟨_, rfl, rfl⟩
    · cases h
  indexed := by
    rintro (_ | _ | i) d h
    · cases h
      exact ⟨_, rfl, rfl, rfl, rfl⟩
    · cases h
      exact ⟨_, rfl, rfl, rfl, rfl⟩
    · cases h
  events := by
    intro l hl d hd
    rw [List.mem_singleton] at hl
    rw [hl] at hd
    cases hd
  payloads := rfl

/-- It is returned, whatever set was in progress. -/
theorem nothingBetween_returned :
    ∃ u, (((new.pushAll [⟨0, eventBetween.first⟩]).pushAll [⟨1, nothingBetween.first⟩]).push 2
        (frame msgTransaction 1 2 0 [0, 0, 0, 0, 0, 42])).result = .update u ∧
      u.slot = nothingBetween.tx.slot ∧ u.bytes = nothingBetween.tx.bytes := by
  refine (interleaved_iff nothingBetween [⟨0, eventBetween.first⟩] [⟨1, nothingBetween.first⟩]
    ⟨2, frame msgTransaction 1 2 0 [0, 0, 0, 0, 0, 42]⟩ rfl).mpr ?_
  intro l hl
  rw [nothingBetween, List.mem_singleton] at hl
  rw [hl]
  exact Nat.dvd_zero _

end Codec

end ShredStream
