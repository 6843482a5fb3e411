import ShredStream.Theory.Message.V1Transaction

/-!
# Two Parsers of One Container

`messageBytes` takes the signatures off a transaction to find the message,
`deriveSignatures` lists them. In the version-1 container both count from the
end. In the others both read the count that comes first, each with a varint
decoder of its own: `shortvec` takes up to four bytes, `decodeShortvec` up to
three and no value above 16 bits.

Where both accept the count, they agree on all of the container
(`derive_of_count`). Where only `shortvec` does, a message is handed out and
no signatures are. `accounted_iff` says which containers those are: the ones
whose count is written in four bytes and is not zero, or in three bytes with
more than two bits in the third.

## Main definitions

* `Accounted`: The signatures and the message make up the container.
* `CountAgrees`: Both decoders see the same count.

## Theorems

* `decodeShortvec_eq`: The counts `decodeShortvec` accepts.
* `derive_of_count`: Where it accepts, it lists what `messageBytes` skips.
* `accounted_iff`: The containers both parsers agree on.
* `paddedCount_not_accounted`: One they do not.
-/

namespace ShredStream

open Cursor Message

/-- The signatures derived from `b` and the message `m` make up `b`, together
    with the count that comes first where the container has one. -/
def Accounted (b m : Bytes) : Prop :=
  let sigs := Update.deriveSignatures b
  if b.head? = some 0x81 then b = m ++ sigs.flatMap (fun s => s.bytes)
  else ∃ p n, shortvec b 0 "signature count" = .ok (n, p.length) ∧
    b = p ++ (sigs.flatMap (fun s => s.bytes) ++ m) ∧ sigs.length = n

/-- The count is written in one or two bytes, or in three with the third at
    most 3, or it is a zero of four bytes; or the container is of version 1,
    where there is no such count. -/
def CountAgrees (b : Bytes) : Prop :=
  b.head? = some 0x81 ∨ b.getD 0 0 < 0x80 ∨ b.getD 1 0 < 0x80 ∨ b.getD 2 0 ≤ 0x03 ∨
    b.take 4 = [0x80, 0x80, 0x80, 0x00]

instance (b : Bytes) : Decidable (CountAgrees b) :=
  inferInstanceAs (Decidable (_ ∨ _ ∨ _ ∨ _ ∨ _))

namespace Update

/-- The counts that `decode_shortvec` accepts: three bytes at most, and not
    more than two bits in a third one. -/
def Narrow (i : Nat) (p : Bytes) : Prop := i + p.length ≤ 3 ∧ (i + p.length = 3 → p.getLastD 0 ≤ 3)

instance (i : Nat) (p : Bytes) : Decidable (Narrow i p) := inferInstanceAs (Decidable (_ ∧ _))

/-- A last byte is acceptable unless it is the third and too large. -/
theorem narrow_singleton (i : Nat) (b : UInt8) (hi : i ≤ 2) :
    Narrow i [b] ↔ ¬ (i = 2 ∧ b > 3) := by
  simp only [Narrow, List.length_singleton, List.getLastD_cons, List.getLastD_nil, gt_iff_lt,
    not_and, UInt8.not_lt, UInt8.le_iff_toNat_le]
  omega

/-- What is acceptable is decided by where the count ends. -/
theorem narrow_cons (i : Nat) (b : UInt8) (bs : Bytes) (h : bs ≠ []) :
    Narrow (i + 1) bs ↔ Narrow i (b :: bs) := by
  have hlast : (b :: bs).getLastD 0 = bs.getLastD 0 := by
    rw [List.getLastD_cons, List.getLastD_eq_getLast?, List.getLastD_eq_getLast?,
      List.getLast?_eq_some_getLast h]
    rfl
  rw [Narrow, Narrow, hlast, List.length_cons, Nat.add_assoc, Nat.add_comm 1]

/-- The loop from its `i`-th byte on, over a terminated varint. -/
theorem decodeShortvecLoop_eq (p rest : Bytes) : ∀ i value, i ≤ 2 → value < 2 ^ (7 * i) →
    Varint.Terminated p →
      decodeShortvecLoop ((p ++ rest).take (3 - i)) i value
        = if Narrow i p then some (value + 2 ^ (7 * i) * Varint.value p, i + p.length)
          else none := by
  induction p with
  | nil =>
      intro i value _ _ hterm
      exact hterm.elim
  | cons b bs ih =>
      intro i value hi hvalue hterm
      have hvalue' := Varint.groups_lt value (7 * i) b hvalue
      -- One byte of the three is used up in this round.
      have htake : ((b :: bs) ++ rest).take (3 - i) = b :: (bs ++ rest).take (3 - (i + 1)) := by
        rw [List.cons_append, show 3 - i = 3 - (i + 1) + 1 by omega, List.take_succ_cons]
      rw [htake, decodeShortvecLoop]
      simp only [Varint.and_mark_eq_zero, Varint.groups_or value (7 * i) b hvalue]
      by_cases hb : b.toNat < 128
      · obtain rfl := (Varint.terminated_unmarked b bs hb).mp hterm
        simp only [hb, if_true, narrow_singleton i b hi, ite_not, Varint.value, Nat.mul_zero,
          Nat.add_zero, List.length_singleton]
      · rw [Varint.terminated_marked b bs hb] at hterm
        have hmore := Varint.terminated_ne_nil bs hterm
        rw [if_neg hb]
        rcases Nat.lt_or_ge i 2 with hlt | hge
        · -- There is another round.
          rw [ih (i + 1) _ (by omega) hvalue' hterm, Nat.mul_succ, Varint.groups_cons,
            List.length_cons, Nat.add_assoc, Nat.add_comm 1]
          simp only [narrow_cons i b bs hmore]
        · -- The third byte is marked, so there is none.
          have hpos := List.length_pos_iff.mpr hmore
          have hnot : ¬ Narrow i (b :: bs) := by
            rw [Narrow, List.length_cons]
            omega
          have hnone : 3 - (i + 1) = 0 := by omega
          rw [if_neg hnot, hnone, List.take_zero, decodeShortvecLoop]

/-- The count in front of a container is accepted when it is narrow. -/
theorem decodeShortvec_eq (p rest : Bytes) (h : Varint.Terminated p) :
    decodeShortvec (p ++ rest)
      = if Narrow 0 p then some (Varint.value p, p.length) else none := by
  have hloop := decodeShortvecLoop_eq p rest 0 0 (by omega) (by decide) h
  rw [Nat.mul_zero, Nat.pow_zero, Nat.one_mul, Nat.zero_add, Nat.zero_add] at hloop
  exact hloop

/-- Where all the announced signatures fit, all are collected, each from its
    place. -/
theorem collectSignatures_spec (bytes : Bytes) (prefixLen : Nat) (left : Nat) :
    ∀ i, prefixLen + (i + left) * 64 ≤ bytes.length →
      (collectSignatures bytes prefixLen left i).length = left ∧
        ∀ (k : Nat) (s : Signature), (collectSignatures bytes prefixLen left i)[k]? = some s →
          At bytes (prefixLen + i * 64 + 64 * k) s.bytes := by
  induction left with
  | zero =>
      intro i _
      refine ⟨rfl, fun k s hk => ?_⟩
      simp only [collectSignatures, List.getElem?_nil, reduceCtorEq] at hk
  | succ left ih =>
      intro i hfit
      -- This signature fits because the last one does.
      have hhere : prefixLen + i * 64 + 64 ≤ bytes.length := by omega
      rcases ih (i + 1) (by omega) with ⟨hlen, hat⟩
      rw [collectSignatures, dif_pos hhere]
      refine ⟨by rw [List.length_cons, hlen], fun k s hk => ?_⟩
      rcases k with _ | k
      · rw [List.getElem?_cons_zero, Option.some.injEq] at hk
        subst hk
        exact at_window bytes _ 64 hhere
      · rw [List.getElem?_cons_succ] at hk
        have h := hat k s hk
        have hoff : prefixLen + (i + 1) * 64 + 64 * k = prefixLen + i * 64 + 64 * (k + 1) := by
          omega
        rwa [hoff] at h

/-- Where the signatures fit behind a narrow count, all of them are listed. -/
theorem derive_of_count (p rest : Bytes) (h : Varint.Terminated p)
    (hhead : (p ++ rest).head? ≠ some 0x81) (hnarrow : Narrow 0 p)
    (hfit : p.length + Varint.value p * 64 ≤ (p ++ rest).length) :
    (deriveSignatures (p ++ rest)).length = Varint.value p ∧
      At (p ++ rest) p.length ((deriveSignatures (p ++ rest)).flatMap (fun s => s.bytes)) := by
  have hderive : deriveSignatures (p ++ rest)
      = collectSignatures (p ++ rest) p.length (Varint.value p) 0 := by
    rw [deriveSignatures, if_neg hhead, decodeShortvec_eq p rest h, if_pos hnarrow]
  rcases collectSignatures_spec (p ++ rest) p.length (Varint.value p) 0 (by omega) with
    ⟨hlen, hat⟩
  rw [hderive]
  refine ⟨hlen, at_flatMap_of _ 64 (p ++ rest) _ (fun s _ => s.size) p.length (by omega) ?_⟩
  intro k s hk
  have hs := hat k s hk
  rwa [Nat.zero_mul, Nat.add_zero] at hs

/-- Behind a count that is not narrow, no signatures are found. -/
theorem derive_of_wide (p rest : Bytes) (h : Varint.Terminated p)
    (hhead : (p ++ rest).head? ≠ some 0x81) (hwide : ¬ Narrow 0 p) :
    deriveSignatures (p ++ rest) = [] := by
  rw [deriveSignatures, if_neg hhead, decodeShortvec_eq p rest h, if_neg hwide]

/-- In the version-1 container the signatures listed are what is left of it
    behind the message. -/
theorem derive_v1 (b : Bytes) (hhead : b.head? = some 0x81)
    (hfit : 64 * (b[1]?.getD 0).toNat ≤ b.length) :
    At b (b.length - 64 * (b[1]?.getD 0).toNat)
      ((deriveSignatures b).flatMap (fun s => s.bytes)) ∧
    (deriveSignatures b).length = (b[1]?.getD 0).toNat := by
  rw [deriveSignatures, if_pos hhead, dif_pos hfit]
  refine ⟨at_flatMap_of _ 64 b _ (fun s _ => s.size) _ (by omega) ?_, ?_⟩
  · -- The slices are taken in order, so the `i`-th index is `i`.
    intro i s hi
    rw [List.getElem?_map, Option.map_eq_some_iff] at hi
    rcases hi with ⟨j, hj, rfl⟩
    rcases List.getElem?_eq_some_iff.mp hj with ⟨hlt, hget⟩
    rw [List.getElem_finRange] at hget
    have hji : j.val = i := by
      rw [← hget]
      rfl
    rw [← hji]
    have hj' := j.isLt
    exact at_window b _ 64 (by omega)
  · rw [List.length_map, List.length_finRange]

end Update

/-- Where `message_bytes` returns the message of a container with a count in
    front: the count, and room for the signatures behind it. -/
theorem messageBytes_count (b m : Bytes) (hhead : b.head? ≠ some 0x81)
    (h : messageBytes b = .ok m) : ∃ p rest, b = p ++ rest ∧ Length (Varint.value p) p ∧
      shortvec b 0 "signature count" = .ok (Varint.value p, p.length) ∧
      p.length + Varint.value p * 64 ≤ b.length ∧
      m = b.drop (p.length + Varint.value p * 64) := by
  rw [messageBytes, if_neg hhead] at h
  rcases hs : shortvec b 0 "signature count" with e | ⟨n, sz⟩
  · rw [hs] at h
    cases h
  rcases shortvec_sound b 0 n sz _ hs with ⟨p, hlen, hat, rfl⟩
  rw [hs, ok_bind] at h
  simp only at h
  obtain rfl := hlen.2.2
  -- Signatures that do not fit are an error, which `h` rules out.
  by_cases hfit : p.length + Varint.value p * 64 ≤ b.length
  · rw [if_pos hfit, Except.ok.injEq] at h
    exact ⟨p, b.drop p.length, at_front b p hat, hlen, rfl, hfit, h.symm⟩
  · rw [if_neg hfit] at h
    cases h

/-- Where `message_bytes` returns the message of a version-1 container: what
    is left in front of the signatures. -/
theorem messageBytes_v1 (b m : Bytes) (hhead : b.head? = some 0x81)
    (h : messageBytes b = .ok m) : 64 * (b[1]?.getD 0).toNat ≤ b.length ∧
      m = b.take (b.length - 64 * (b[1]?.getD 0).toNat) := by
  rw [messageBytes, if_pos hhead, byteAt] at h
  rcases hn : b[1]? with _ | n
  · rw [hn] at h
    cases h
  simp only [hn, ok_bind, checkedSub] at h
  rw [Option.getD_some]
  by_cases hfit : 64 * n.toNat ≤ b.length
  · by_cases hmin : 42 ≤ b.length - 64 * n.toNat
    · simp only [hfit, if_true, Option.filter_some, hmin, decide_true, Except.ok.injEq] at h
      exact ⟨hfit, h.symm⟩
    · simp only [hfit, if_true, Option.filter_some, hmin, decide_false, Bool.false_eq_true,
        if_false, reduceCtorEq] at h
  · simp only [hfit, if_false, Option.filter_none, reduceCtorEq] at h

/-- What the first bytes of a container say about the count in front of it:
    whether the narrow decoder accepts it, or there is nothing to count. -/
theorem countAgrees_iff (p rest : Bytes) (h : Length (Varint.value p) p)
    (hhead : (p ++ rest).head? ≠ some 0x81) :
    CountAgrees (p ++ rest) ↔ Update.Narrow 0 p ∨ Varint.value p = 0 := by
  rcases h with ⟨hterm, hlen, _⟩
  have hlow : ∀ b : UInt8, b < 0x80 ↔ b.toNat < 128 := fun b => UInt8.lt_iff_toNat_lt
  have htwo : ∀ b : UInt8, b ≤ 0x03 ↔ b.toNat ≤ 3 := fun b => UInt8.le_iff_toNat_le
  simp only [CountAgrees, hhead, false_or, Update.Narrow, hlow, htwo, Nat.zero_add]
  -- One case for each number of bytes the count can take.
  rcases p with _ | ⟨x, _ | ⟨y, _ | ⟨z, _ | ⟨w, _ | ⟨v, p⟩⟩⟩⟩⟩
  · exact hterm.elim
  · have hx : x.toNat < 128 := by
      by_contra hge
      simp only [Varint.Terminated, hge, if_false] at hterm
    simp only [List.cons_append, List.getD_cons_zero, hx, true_or, List.length_singleton, true_iff]
    exact Or.inl ⟨by omega, by omega⟩
  · have hy : y.toNat < 128 := by
      by_contra hge
      simp only [Varint.Terminated, hge, if_false, reduceCtorEq, ite_self] at hterm
    simp only [List.cons_append, List.getD_cons_succ, List.getD_cons_zero, hy, true_or, or_true,
      List.length_cons, List.length_nil, true_iff]
    exact Or.inl ⟨by omega, by omega⟩
  · simp only [Varint.Terminated, reduceCtorEq, if_false_left, if_false_right, and_true] at hterm
    have hz : z ≠ 0x80 := by
      rintro rfl
      exact absurd hterm.2.2 (by decide)
    simp only [List.cons_append, List.getD_cons_succ, List.getD_cons_zero, List.take_succ_cons,
      List.cons.injEq, hz, false_and, and_false, or_false, List.length_cons, List.length_nil,
      List.getLastD_cons, List.getLastD_nil, Varint.value, forall_const]
    omega
  · -- Four bytes are never narrow, and worth nothing when no group is.
    simp only [Varint.Terminated, reduceCtorEq, if_false_left, if_false_right, and_true] at hterm
    rcases hterm with ⟨hx, hy, hz, hw⟩
    have hz3 : ¬ z.toNat ≤ 3 := by omega
    have hgroup : ∀ b : UInt8, ¬ b.toNat < 128 → (b.toNat = 128 ↔ b.toNat % 128 = 0) := by
      intro b hb
      have hlt := b.toNat_lt
      omega
    simp only [List.cons_append, List.getD_cons_succ, List.getD_cons_zero, List.take_succ_cons,
      List.take_zero, List.cons.injEq, and_true, ← UInt8.toNat_inj, UInt8.toNat_ofNat,
      List.length_cons, List.length_nil, Varint.value, hx, hy, hz3, false_or, hgroup x hx,
      hgroup y hy, hgroup z hz]
    omega
  · simp only [List.length_cons] at hlen
    omega

/-- The signatures and the message of a container account for all of it
    exactly when both decoders see the same count. -/
theorem accounted_iff (b m : Bytes) (h : messageBytes b = .ok m) :
    Accounted b m ↔ CountAgrees b := by
  by_cases hhead : b.head? = some 0x81
  · rcases messageBytes_v1 b m hhead h with ⟨hfit, rfl⟩
    rcases Update.derive_v1 b hhead hfit with ⟨hat, hlen⟩
    refine ⟨fun _ => Or.inl hhead, fun _ => ?_⟩
    rw [Accounted, if_pos hhead]
    have hslice := at_slice b _ _ hat
    rw [length_signatures, hlen, List.take_of_length_le (by rw [List.length_drop]; omega)] at hslice
    rw [← hslice, List.take_append_drop]
  · rcases messageBytes_count b m hhead h with ⟨p, rest, rfl, hform, hshort, hfit, rfl⟩
    rw [countAgrees_iff p rest hform hhead, Accounted, if_neg hhead]
    by_cases hnarrow : Update.Narrow 0 p
    · -- Both decoders accept the count.
      rcases Update.derive_of_count p rest hform.1 hhead hnarrow hfit with ⟨hlen, hat⟩
      refine ⟨fun _ => Or.inl hnarrow, fun _ => ⟨p, Varint.value p, hshort, ?_, hlen⟩⟩
      have hall := at_front _ _ ((at_append _ p _ 0).mpr
        ⟨at_zero p rest, by rw [Nat.zero_add]; exact hat⟩)
      rw [List.length_append, length_signatures, hlen, Nat.mul_comm, List.append_assoc] at hall
      exact hall
    · -- Only one of them does; it had better be nothing.
      rw [Update.derive_of_wide p rest hform.1 hhead hnarrow]
      simp only [hnarrow, false_or, List.flatMap_nil, List.nil_append, List.length_nil]
      constructor
      · rintro ⟨q, n, hq, _, hn⟩
        rw [hshort, Except.ok.injEq, Prod.mk.injEq] at hq
        rw [hq.1, ← hn]
      · intro hzero
        refine ⟨p, Varint.value p, hshort, ?_, hzero.symm⟩
        rw [hzero, Nat.zero_mul, Nat.add_zero, List.drop_left]

/-- A container of two signatures whose count is written in four bytes. -/
def paddedCount : Bytes := [0x82, 0x80, 0x80, 0x00] ++ List.replicate 128 5 ++ [1, 0, 1]

set_option maxRecDepth 2000 in
/-- The message is found behind the two signatures, and they are not. -/
theorem paddedCount_not_accounted :
    messageBytes paddedCount = .ok [1, 0, 1] ∧ ¬ Accounted paddedCount [1, 0, 1] := by
  have hderive : Update.deriveSignatures paddedCount = [] := rfl
  refine ⟨rfl, ?_⟩
  rw [Accounted, if_neg (by decide), hderive]
  rintro ⟨p, n, hcount, _, hn⟩
  have hshort : shortvec paddedCount 0 "signature count" = .ok (2, 4) := rfl
  rw [hshort, Except.ok.injEq, Prod.mk.injEq, ← hn] at hcount
  exact absurd hcount.1 (by decide)

set_option maxRecDepth 2000 in
/-- A container of two signatures whose count is written in one byte. -/
theorem plainCount_accounted :
    Accounted ([2] ++ List.replicate 128 5 ++ [1, 0, 1]) [1, 0, 1] ∧
      messageBytes ([2] ++ List.replicate 128 5 ++ [1, 0, 1]) = .ok [1, 0, 1] ∧
      (Update.deriveSignatures ([2] ++ List.replicate 128 5 ++ [1, 0, 1])).map (fun s => s.bytes)
        = [List.replicate 64 5, List.replicate 64 5] :=
  ⟨(accounted_iff _ _ rfl).mpr (Or.inr (Or.inl (by decide))), rfl, rfl⟩

end ShredStream
