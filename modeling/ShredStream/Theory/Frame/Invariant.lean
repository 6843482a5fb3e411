import ShredStream.Theory.Frame.Accounting

/-!
# The State of the Reassembler

Between two pushes the reassembler is in one of two conditions. It is idle,
and then nothing is left of any set; or a set is in progress, and then its
buffer holds the payloads of the fragments accepted last, as many as the
index of the next one says.

The next index stays strictly below the count, also when it grows: the
fragment that makes it grow has an index below the count, and where that is
the last one the set is completed instead. The count is a byte, so a byte has
room for the sum. The same inequality bounds the buffer, which never holds
more payloads than a set has fragments but one.

## Main definitions

* `acceptedOf`: The fragments accepted, in order.
* `Idle`, `InProgress`: The two conditions.
* `Continuing`: A fragment on which the source adds to an index.
* `Invariant`: What holds between two pushes.

## Theorems

* `consistent_push`: A push keeps the condition.
* `length_buf_le`: How much the buffer holds.
* `reassembler_invariant`: The invariant holds after any datagrams.
-/

namespace ShredStream

namespace Codec

namespace StreamDecoder

/-- The fragments that were accepted and did not complete a set. -/
def acceptedOf (arrivals : List Arrival) (ps : List Pushed) : List Bytes :=
  ((arrivals.zip ps).filter
    (fun x => isTransaction x.1.datagram && x.2.result == .skipped)).map (fun x => x.1.datagram)

/-- Nothing is left of a set. -/
def Idle (r : Reassembler) : Prop :=
  r.buf = [] ∧ r.fragCount = 0 ∧ r.expectIndex = 0 ∧ r.lastSeq = 0

/-- The datagrams are the fragments 0, 1, ... of a set of `count`. -/
def Numbered (count : UInt8) (set : List Bytes) : Prop :=
  ∀ (i : Nat) (d : Bytes), set[i]? = some d → ∃ header, parseHeader d = .ok header ∧
    header.fragCount = count ∧ header.fragIndex.toNat = i

/-- A set is in progress: the fragments accepted last are its first ones, as
    many as the next index says, and the buffer holds their payloads. -/
structure InProgress (accepted : List Bytes) (r : Reassembler) : Prop where
  count : 2 ≤ r.fragCount
  index : 1 ≤ r.expectIndex
  below : r.expectIndex < r.fragCount
  collected : ∃ older set, accepted = older ++ set ∧ set.length = r.expectIndex.toNat ∧
    Numbered r.fragCount set ∧ r.buf = set.flatMap payload

/-- The reassembler is idle, or a set is in progress. -/
structure Consistent (accepted : List Bytes) (r : Reassembler) : Prop where
  idle : r.active = false → Idle r
  inProgress : r.active = true → InProgress accepted r

/-- The fragment continues the set, which makes the source add one to the
    expected index and to the fragment's own. -/
def Continuing (r : Reassembler) (header : FrameHeader) : Prop :=
  header.msgType = msgTransaction ∧ header.fragCount ≠ 1 ∧
    ¬ (header.fragCount = 0 ∨ header.fragIndex ≥ header.fragCount) ∧ header.fragIndex ≠ 0 ∧
      ¬ Broken r header

/-- What holds of the reassembler after the arrivals: one of the two
    conditions, a bound on the buffer, and room in a byte for both sums. -/
structure Invariant (arrivals : List Arrival) (ps : List Pushed) (r : Reassembler) : Prop where
  idle : r.active = false → Idle r
  inProgress : r.active = true → InProgress (acceptedOf arrivals ps) r
  bounded : r.active = true → ∀ L, (∀ a ∈ arrivals, a.datagram.length ≤ L) →
    r.buf.length ≤ (r.fragCount.toNat - 1) * (L - 16)
  increments : ∀ header, Continuing r header →
    r.expectIndex.toNat + 1 < 2 ^ 8 ∧ header.fragIndex.toNat + 1 < 2 ^ 8

/-! ### The fragments accepted -/

theorem acceptedOf_append (as bs : List Arrival) (ps qs : List Pushed)
    (h : as.length = ps.length) :
    acceptedOf (as ++ bs) (ps ++ qs) = acceptedOf as ps ++ acceptedOf bs qs := by
  rw [acceptedOf, List.zip_append h, List.filter_append, List.map_append]
  rfl

theorem acceptedOf_singleton (a : Arrival) (r : Pushed) : acceptedOf [a] [r]
    = if isTransaction a.datagram && r.result == .skipped then [a.datagram] else [] := by
  simp only [acceptedOf, List.zip_cons_cons, List.zip_nil_right, List.filter_cons, List.filter_nil]
  split <;> rfl

/-- Every one of them is a datagram that arrived. -/
theorem mem_acceptedOf (arrivals : List Arrival) (ps : List Pushed) (d : Bytes)
    (h : d ∈ acceptedOf arrivals ps) : ∃ a ∈ arrivals, a.datagram = d := by
  rcases List.mem_map.mp h with ⟨⟨a, p⟩, hmem, rfl⟩
  exact ⟨a, (List.of_mem_zip (List.mem_filter.mp hmem).1).1, rfl⟩

/-- A transaction frame that is passed over is accepted. -/
theorem acceptedOf_kept (a : Arrival) (r : Pushed) (header : FrameHeader)
    (hh : parseHeader a.datagram = .ok header) (hm : header.msgType = msgTransaction)
    (hr : r.result = .skipped) : acceptedOf [a] [r] = [a.datagram] := by
  rw [acceptedOf_singleton, hr, isTransaction, hh]
  simp only [hm, beq_self_eq_true, Bool.and_self, if_true]

/-- An error accepts nothing. -/
theorem acceptedOf_reject (a : Arrival) (d : StreamDecoder) (e : FrameError) :
    acceptedOf [a] [d.reject e] = [] := by
  rw [acceptedOf_singleton, reject_result]
  simp only [beq_iff_eq, reduceCtorEq, Bool.and_eq_true, and_false, if_false]

/-! ### One push -/

section Push

variable (accepted : List Bytes)

/-- After a reset, whatever was accepted, the reassembler is idle. -/
theorem consistent_reset : Consistent accepted .reset := by
  refine ⟨fun _ => ⟨rfl, rfl, rfl, rfl⟩, fun hactive => ?_⟩
  cases hactive

/-- A first fragment starts a set. -/
theorem inProgress_first (b : Bytes) (header : FrameHeader) (hh : parseHeader b = .ok header)
    (h1 : header.fragCount ≠ 1)
    (hfit : ¬ (header.fragCount = 0 ∨ header.fragIndex ≥ header.fragCount))
    (h0 : header.fragIndex = 0) : InProgress (accepted ++ [b])
      { buf := payload b, fragCount := header.fragCount, expectIndex := 1, lastSeq := header.seq,
        active := true } := by
  have hcount : 2 ≤ header.fragCount := (two_le_iff _).mpr ⟨fun h => hfit (Or.inl h), h1⟩
  refine ⟨hcount, UInt8.le_refl 1, ?_, accepted, [b], rfl, rfl, ?_, ?_⟩
  · rw [UInt8.lt_iff_toNat_lt]
    exact UInt8.le_iff_toNat_le.mp hcount
  · intro i d hd
    cases i with
    | zero =>
        obtain rfl := Option.some.inj hd
        exact ⟨header, hh, rfl, by rw [h0]; rfl⟩
    | succ i => cases hd
  · rw [List.flatMap_singleton]

/-- A fragment that continues the set and is not its last one extends it. -/
theorem inProgress_more (b : Bytes) (r : Reassembler) (header : FrameHeader)
    (hh : parseHeader b = .ok header)
    (hfit : ¬ (header.fragCount = 0 ∨ header.fragIndex ≥ header.fragCount))
    (hb : ¬ Broken r header) (hl : header.fragIndex + 1 ≠ header.fragCount)
    (h : InProgress accepted r) : InProgress (accepted ++ [b])
      { r with
        buf := r.buf ++ payload b, lastSeq := header.seq, expectIndex := r.expectIndex + 1 } := by
  rcases (unbroken_iff r header).mp hb with ⟨_, hcount, hindex, _⟩
  have hlt := lt_of_fit hfit
  rw [hindex] at hlt hl
  have hsucc := toNat_succ_of_lt _ _ hlt
  rcases h.collected with ⟨older, set, rfl, hlen, hnumbered, hbuf⟩
  refine ⟨h.count, ?_, ?_, older, set ++ [b], List.append_assoc _ _ _, ?_, ?_, ?_⟩
  · rw [UInt8.le_iff_toNat_le, hsucc]
    exact Nat.le_add_left 1 _
  · -- It is below the count and not the last, so the next one is below it too.
    have hne := toNat_ne hl
    rw [UInt8.lt_iff_toNat_lt] at hlt ⊢
    rw [hcount, hsucc]
    omega
  · rw [List.length_append, hlen, List.length_singleton, hsucc]
  · intro i d hd
    rcases Nat.lt_or_ge i set.length with hi | hi
    · rw [List.getElem?_append_left hi] at hd
      exact hnumbered i d hd
    · rw [List.getElem?_append_right hi, List.getElem?_singleton] at hd
      have hzero : i - set.length = 0 := by
        by_contra hne
        rw [if_neg hne] at hd
        cases hd
      rw [if_pos hzero] at hd
      obtain rfl := Option.some.inj hd
      refine ⟨header, hh, hcount.symm, ?_⟩
      rw [hindex, ← hlen]
      omega
  · rw [hbuf, List.flatMap_append, List.flatMap_singleton]

/-- A push keeps the condition, whichever way it goes. -/
theorem consistent_push (d : StreamDecoder) (a : Arrival) (h : Consistent accepted d.reasm) :
    Consistent (accepted ++ acceptedOf [a] [d.push a.now a.datagram])
      (d.push a.now a.datagram).decoder.reasm := by
  have hp := push_pushes d a.now a.datagram
  generalize d.push a.now a.datagram = r at hp ⊢
  cases hp with
  | rejected | misfit =>
      rw [acceptedOf_reject, List.append_nil]
      exact h
  | other header hh hm =>
      have hnone : isTransaction a.datagram = false := by
        simp only [isTransaction, hh, beq_eq_false_iff_ne, ne_eq, hm, not_false_eq_true]
      rw [acceptedOf_singleton, hnone, Bool.false_and, if_neg Bool.false_ne_true, List.append_nil]
      exact h
  | lone | last =>
      rw [complete_reasm]
      exact consistent_reset _
  | broken => exact consistent_reset _
  | first header hh hm h1 hfit h0 =>
      rw [acceptedOf_kept a _ header hh hm rfl]
      refine ⟨fun hidle => ?_, fun _ => ?_⟩
      · cases hidle
      · exact inProgress_first accepted a.datagram header hh h1 hfit h0
  | more header hh hm h1 hfit h0 hb hl =>
      have hactive := ((unbroken_iff d.reasm header).mp hb).1
      rw [acceptedOf_kept a _ header hh hm rfl]
      refine ⟨fun hidle => ?_, fun _ => ?_⟩
      · exact absurd (hactive.symm.trans hidle) (by decide)
      · exact inProgress_more accepted a.datagram d.reasm header hh hfit hb hl
          (h.inProgress hactive)

end Push

/-! ### What follows -/

/-- Pieces of at most `n` bytes make at most `n` bytes for each of them. -/
theorem length_flatMap_le (set : List Bytes) (f : Bytes → Bytes) (n : Nat)
    (h : ∀ d ∈ set, (f d).length ≤ n) : (set.flatMap f).length ≤ set.length * n := by
  induction set with
  | nil => exact Nat.zero_le _
  | cons d set ih =>
      rcases List.forall_mem_cons.mp h with ⟨hd, hrest⟩
      rw [List.flatMap_cons, List.length_append, List.length_cons, Nat.succ_mul, Nat.add_comm]
      exact Nat.add_le_add (ih hrest) hd

/-- The buffer holds at most one payload less than the set has fragments. -/
theorem length_buf_le (accepted : List Bytes) (r : Reassembler) (h : InProgress accepted r)
    (n : Nat) (hlen : ∀ d ∈ accepted, (payload d).length ≤ n) :
    r.buf.length ≤ (r.fragCount.toNat - 1) * n := by
  rcases h.collected with ⟨older, set, rfl, hset, _, hbuf⟩
  have hbelow := UInt8.lt_iff_toNat_lt.mp h.below
  calc r.buf.length
      ≤ set.length * n := by
        rw [hbuf]
        exact length_flatMap_le set payload n (fun d hd => hlen d (List.mem_append_right older hd))
    _ ≤ (r.fragCount.toNat - 1) * n := Nat.mul_le_mul_right n (by omega)

/-- Both sums fit in a byte: what one is added to is below a count. -/
theorem continuing_room (accepted : List Bytes) (r : Reassembler) (header : FrameHeader)
    (h : Consistent accepted r) (hc : Continuing r header) :
    r.expectIndex.toNat + 1 < 2 ^ 8 ∧ header.fragIndex.toNat + 1 < 2 ^ 8 := by
  rcases hc with ⟨_, _, hfit, _, hb⟩
  have hactive := ((unbroken_iff r header).mp hb).1
  have hexpect := UInt8.lt_iff_toNat_lt.mp (h.inProgress hactive).below
  have hcount := UInt8.toNat_lt r.fragCount
  exact ⟨by omega, next_index header hfit⟩

/-- After any datagrams the reassembler is idle or a set is in progress. -/
theorem consistent_pushAll (arrivals : List Arrival) :
    Consistent (acceptedOf arrivals (new.pushes arrivals)) (new.pushAll arrivals).reasm := by
  induction arrivals using List.reverseRecOn with
  | nil => exact consistent_reset _
  | append_singleton arrivals a ih =>
      rw [pushes_append_singleton, pushAll_append_singleton,
        acceptedOf_append _ _ _ _ (length_pushes arrivals new).symm]
      exact consistent_push _ _ a ih

/-- The invariant of the reassembler holds after any datagrams. -/
theorem reassembler_invariant (arrivals : List Arrival) :
    Invariant arrivals (new.pushes arrivals) (new.pushAll arrivals).reasm := by
  have h := consistent_pushAll arrivals
  refine ⟨h.idle, h.inProgress, fun hactive L hL => ?_, fun header hc => ?_⟩
  · refine length_buf_le _ _ (h.inProgress hactive) (L - 16) (fun d hd => ?_)
    rcases mem_acceptedOf arrivals _ d hd with ⟨a, ha, rfl⟩
    rw [payload, List.length_drop]
    exact Nat.sub_le_sub_right (hL a ha) 16
  · exact continuing_room _ _ header h hc

end StreamDecoder

end Codec

end ShredStream
