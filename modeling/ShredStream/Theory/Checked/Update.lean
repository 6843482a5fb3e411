import ShredStream.Theory.Checked.Message

/-!
# The Accessors Do Not Panic

What `signature`, `signatures` and `parse` do on an update whose bytes are a
slice of a program, that is, shorter than 2^63 bytes. The number of signatures
comes from the input: at most 255 of them in a version-1 container, and at
most 21 bits in the others. Where a signature is cut out, the check that it
fits has just been made.

## Theorems

* `decodeShortvec_ok`: The count, and how large it can be.
* `deriveSignatures_ok`: The signatures of a transaction.
* `signature_ok`, `signatures_ok`, `parse_ok`: The accessors.
-/

namespace ShredStream

namespace Checked

open MayPanic

/-- A slice of 64 bytes is a signature. -/
theorem get_signature (b : Bytes) (o : Nat) :
    get b o (o + 64) = (Signature.get? b o).map Signature.bytes := by
  rw [get_window, Signature.get?]
  by_cases h : o + 64 ≤ b.length
  · rw [if_pos h, dif_pos h]
    rfl
  · rw [if_neg h, dif_neg h]
    rfl

/-! ### The list of signatures -/

/-- At most three bytes are read, and each adds seven bits. -/
theorem decodeShortvecLoop_ok (bytes : Bytes) : ∀ i value, bytes.length + i ≤ 3 →
    value < 2 ^ (7 * i) →
      decodeShortvecLoop bytes i value = .ok (Update.decodeShortvecLoop bytes i value) ∧
        ∀ n sz, Update.decodeShortvecLoop bytes i value = some (n, sz) → n < 2 ^ 21 ∧ sz ≤ 3 := by
  induction bytes with
  | nil =>
      intro i value _ _
      exact ⟨rfl, nofun⟩
  | cons b rest ih =>
      intro i value hi hvalue
      rw [List.length_cons] at hi
      have hnext : value ||| (b &&& 0x7F).toNat <<< (7 * i) < 2 ^ (7 * (i + 1)) := by
        rw [Varint.groups_or value (7 * i) b hvalue]
        exact Varint.groups_lt value (7 * i) b hvalue
      -- Three groups of seven bits at most.
      have hsmall : 2 ^ (7 * (i + 1)) ≤ 2 ^ 21 := Nat.pow_le_pow_right (by decide) (by omega)
      rw [decodeShortvecLoop, Update.decodeShortvecLoop, mul_ok 7 i (by omega)]
      simp only [Message.ok_bind, shl_ok _ (7 * i) (by omega) (group_lt b (7 * i) (by omega))]
      by_cases hlast : b &&& 0x80 = 0
      · simp only [if_pos hlast]
        by_cases hwide : i = 2 ∧ b > 0x03
        · simp only [if_pos hwide]
          exact ⟨rfl, nofun⟩
        · simp only [if_neg hwide, add_ok i 1 (by omega), Message.ok_bind]
          refine ⟨rfl, fun n sz h => ?_⟩
          cases h
          exact ⟨by omega, by omega⟩
      · simp only [if_neg hlast]
        exact ih (i + 1) _ (by omega) hnext

theorem decodeShortvec_ok (b : Bytes) :
    decodeShortvec b = .ok (Update.decodeShortvec b) ∧
      ∀ n sz, Update.decodeShortvec b = some (n, sz) → n < 2 ^ 21 ∧ sz ≤ 3 := by
  refine decodeShortvecLoop_ok (b.take 3) 0 0 ?_ (by decide)
  rw [List.length_take]
  omega

/-- The loop over the announced signatures stays below the width. -/
theorem collectSignatures_ok (bytes : Bytes) (prefixLen : Nat) (hlead : prefixLen ≤ 3)
    (left : Nat) : ∀ i, i + left ≤ 2 ^ 21 → collectSignatures bytes prefixLen left i
      = .ok (Update.collectSignatures bytes prefixLen left i) := by
  induction left with
  | zero =>
      intro i _
      rfl
  | succ left ih =>
      intro i hi
      rw [collectSignatures, Update.collectSignatures]
      refine ok_step _ _ _ _ (mul_ok i 64 (by omega)) ?_
      refine ok_step _ _ _ _ (add_ok prefixLen _ (by omega)) ?_
      refine ok_step _ _ _ _ (add_ok _ 64 (by omega)) ?_
      rw [get_window]
      by_cases hfits : prefixLen + i * 64 + 64 ≤ bytes.length
      · rw [if_pos hfits, dif_pos hfits]
        have hlen := Cursor.length_window bytes (prefixLen + i * 64) 64 hfits
        refine ok_step _ _ _ _ (tryInto_ok 64 _ hlen) ?_
        exact ok_step _ _ _ _ (ih (i + 1) (by omega)) rfl
      · rw [if_neg hfits, dif_neg hfits]
        rfl

/-- A signature that lies inside the container is cut out of it. -/
theorem signatureAt_ok (bytes : Bytes) (start i : Nat) (hfit : bytes.length < 2 ^ 63)
    (h : start + 64 * i + 64 ≤ bytes.length) :
    signatureAt bytes start i = .ok (Signature.slice bytes (start + 64 * i) h) := by
  refine ok_step _ _ _ _ (mul_ok 64 i (by omega)) ?_
  refine ok_step _ _ _ _ (add_ok start _ (by omega)) ?_
  refine ok_step _ _ _ _ (add_ok i 1 (by omega)) ?_
  refine ok_step _ _ _ _ (mul_ok 64 (i + 1) (by omega)) ?_
  refine ok_step _ _ _ _ (add_ok start _ (by omega)) ?_
  -- The end is computed on its own, and lies 64 bytes further.
  have hstop : start + 64 * (i + 1) = start + 64 * i + 64 := by omega
  rw [hstop]
  refine ok_step _ _ _ _ (slice_ok bytes _ _ (Nat.le_add_right _ 64) h) ?_
  have hlen := Cursor.length_window bytes (start + 64 * i) 64 h
  rw [Nat.add_sub_cancel_left]
  exact ok_step _ _ _ _ (tryInto_ok 64 _ hlen) rfl

/-- A map none of whose rounds panics. -/
theorem mapM_ok {α β : Type} (f : α → MayPanic β) (g : α → β) (as : List α)
    (h : ∀ a ∈ as, f a = .ok (g a)) : as.mapM f = .ok (as.map g) := by
  induction as with
  | nil => rfl
  | cons a as ih =>
      rcases List.forall_mem_cons.mp h with ⟨ha, has⟩
      rw [List.mapM_cons, List.map_cons]
      exact ok_step _ _ _ _ ha (ok_step _ _ _ _ (ih has) rfl)

theorem deriveSignatures_ok (bytes : Bytes) (hfit : bytes.length < 2 ^ 63) :
    deriveSignatures bytes = .ok (Update.deriveSignatures bytes) := by
  unfold deriveSignatures Update.deriveSignatures
  by_cases hfirst : bytes.head? = some 0x81
  · rw [if_pos hfirst, if_pos hfirst]
    have hn := (bytes[1]?.getD 0).toNat_lt
    refine ok_step _ _ _ _ (mul_ok 64 _ (by omega)) ?_
    rw [Message.checkedSub]
    by_cases hle : 64 * (bytes[1]?.getD 0).toNat ≤ bytes.length
    · rw [if_pos hle, dif_pos hle, ← List.map_coe_finRange_eq_range]
      simp only [List.mapM_map]
      refine mapM_ok _ _ _ (fun i _ => ?_)
      have hi := i.isLt
      exact signatureAt_ok bytes _ i.val hfit (by omega)
    · rw [if_neg hle, dif_neg hle]
      rfl
  · rw [if_neg hfirst, if_neg hfirst]
    rcases decodeShortvec_ok bytes with ⟨hcount, hbound⟩
    refine ok_step _ _ _ _ hcount ?_
    rcases hd : Update.decodeShortvec bytes with _ | ⟨count, prefixLen⟩
    · rfl
    -- The reservation is capped, and the loop bounded by the count.
    rcases hbound count prefixLen hd with ⟨hsmall, hlead⟩
    have hroom : min count 64 * 64 < 2 ^ 63 := by
      have hmin := Nat.min_le_right count 64
      omega
    refine ok_step _ _ _ _ (reserve_ok _ 64 hroom) ?_
    exact collectSignatures_ok bytes prefixLen hlead count 0 (by omega)

/-! ### The accessors -/

/-- Where `signature` looks there is a signature, or nothing. -/
theorem signatureView_ok (b : Bytes) (hfit : b.length < 2 ^ 63) : signatureView b
    = .ok ((if b.head? = some 0x81 then
        (Message.checkedSub b.length (64 * (b[1]?.getD 0).toNat)).bind (Signature.get? b)
      else Signature.get? b 1).map Signature.bytes) := by
  unfold signatureView
  by_cases hfirst : b.head? = some 0x81
  · rw [if_pos hfirst, if_pos hfirst]
    have hn := (b[1]?.getD 0).toNat_lt
    refine ok_step _ _ _ _ (mul_ok 64 _ (by omega)) ?_
    rw [Message.checkedSub]
    by_cases hle : 64 * (b[1]?.getD 0).toNat ≤ b.length
    · rw [if_pos hle]
      refine ok_step _ _ _ _ (add_ok _ 64 (by omega)) ?_
      exact congrArg Except.ok (get_signature b _)
    · rw [if_neg hle]
      rfl
  · rw [if_neg hfirst, if_neg hfirst]
    exact congrArg Except.ok (get_signature b 1)

theorem signature_ok (u : TransactionUpdate) (hfit : u.bytes.length < 2 ^ 63) :
    signature u = .ok u.signature := by
  refine ok_step _ _ _ _ (signatureView_ok u.bytes hfit) ?_
  unfold TransactionUpdate.signature
  simp only
  generalize (if u.bytes.head? = some 0x81 then
    (Message.checkedSub u.bytes.length (64 * (u.bytes[1]?.getD 0).toNat)).bind
      (Signature.get? u.bytes) else Signature.get? u.bytes 1) = view
  cases view with
  | none => rfl
  | some s => exact ok_step _ _ _ _ (copyFromSlice_ok 64 s.bytes s.size) rfl

theorem signatures_ok (u : TransactionUpdate) (hfit : u.bytes.length < 2 ^ 63) :
    signatures u = .ok u.signatures := by
  unfold signatures TransactionUpdate.signatures
  by_cases hgiven : u.providedSignatures ≠ []
  · rw [if_pos hgiven, if_pos hgiven]
    rcases u.providedSignatures.mapM Signature.ofBytes? with _ | provided
    · exact deriveSignatures_ok u.bytes hfit
    · rfl
  · rw [if_neg hgiven, if_neg hgiven]
    exact deriveSignatures_ok u.bytes hfit

/-- The message is a part of the transaction. -/
theorem messageBytes_bound (tx message : Bytes) (h : Message.messageBytes tx = .ok message) :
    message.length ≤ tx.length := by
  unfold Message.messageBytes at h
  split at h
  · rcases (Message.bind_eq_ok _ _ _).mp h with ⟨n, _, hend⟩
    split at hend
    · cases hend
      exact List.length_take_le' _ _
    · cases hend
  · rcases (Message.bind_eq_ok _ _ _).mp h with ⟨⟨n, sz⟩, _, hend⟩
    simp only at hend
    split at hend
    · cases hend
      rw [List.length_drop]
      exact Nat.sub_le _ _
    · cases hend

theorem parse_ok (u : TransactionUpdate) (hfit : u.bytes.length < 2 ^ 63) :
    Returns (parse u) u.parse := by
  refine returns_bind _ _ _ _ (returns_messageBytes u.bytes hfit) (fun message hm => ?_)
  exact returns_decodeMessage message
    (Nat.lt_of_le_of_lt (messageBytes_bound u.bytes message hm) hfit)

end Checked

end ShredStream
