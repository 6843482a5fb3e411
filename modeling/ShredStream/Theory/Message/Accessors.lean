import ShredStream.Theory.Message.CountedTransaction

/-!
# The Fast Accessor

`signature` is there to be cheap: it takes 64 bytes at a fixed place, where
`signatures` decodes the count first and lists what stands behind it. For an
update without signatures of the server's the two should name the same first
signature.

In a version-1 container they do, and so they do where the count takes one
byte. A count of two or three bytes moves the signatures, and `signature`
still looks at offset 1: it returns the rest of the count and the first
signature less its end. That goes unnoticed only when no signature is listed,
or when the bytes repeat so that the shifted slice is the same.

## Main definitions

* `countWidth`: The size of a count of more than one byte.
* `Repeats`: The 64 bytes at offset 1 come again further on.
* `FirstInPlace`: The containers whose first signature is where the fast
  accessor looks.

## Theorems

* `head_of_count`: The first signature listed.
* `signature_first_iff`: The two accessors agree exactly on those containers.
* `wideCount_signature`: One on which they do not.
-/

namespace ShredStream

open Cursor Message

/-- How many bytes the count takes, where its first byte says that there are
    more. -/
def countWidth (b : Bytes) : Nat :=
  if b.getD 1 0 < 0x80 then 2 else 3

/-- The 64 bytes at offset 1 come again `k` bytes further on. -/
def Repeats (b : Bytes) (k : Nat) : Prop :=
  ∀ i < 64, b[1 + i]? = b[1 + k + i]?

instance (b : Bytes) (k : Nat) : Decidable (Repeats b k) :=
  inferInstanceAs (Decidable (∀ i < 64, b[1 + i]? = b[1 + k + i]?))

/-- The container is of version 1 or its count takes one byte; or no signature
    is listed, because the buffer ends too early, the count is zero, or its
    third byte is too large; or the bytes repeat. -/
def FirstInPlace (b : Bytes) : Prop :=
  b.head? = some 0x81 ∨ b.getD 0 0 < 0x80 ∨ b.length < countWidth b + 64 ∨
    (b.getD 0 0 = 0x80 ∧ (b.getD 1 0 = 0 ∨ b.getD 1 0 = 0x80 ∧ b.getD 2 0 = 0)) ∨
    (0x80 ≤ b.getD 1 0 ∧ 0x03 < b.getD 2 0) ∨ Repeats b (countWidth b - 1)

instance (b : Bytes) : Decidable (FirstInPlace b) :=
  inferInstanceAs (Decidable (_ ∨ _ ∨ _ ∨ _ ∨ _ ∨ _))

namespace Update

/-- The first signature collected: the slice behind the count, if the count is
    not zero and the slice is there. -/
theorem head_collectSignatures (b : Bytes) (prefixLen count : Nat) :
    (collectSignatures b prefixLen count 0).head?
      = if count = 0 then none else Signature.get? b prefixLen := by
  rcases count with _ | left
  · rfl
  · rw [if_neg (Nat.succ_ne_zero left), collectSignatures, Signature.get?]
    simp only [Nat.zero_mul, Nat.add_zero]
    by_cases hfit : prefixLen + 64 ≤ b.length
    · rw [dif_pos hfit, dif_pos hfit, List.head?_cons]
    · rw [dif_neg hfit, dif_neg hfit, List.head?_nil]

/-- The first signature listed behind an accepted count. -/
theorem head_of_count (b : Bytes) (count prefixLen : Nat) (hhead : b.head? ≠ some 0x81)
    (h : decodeShortvec b = some (count, prefixLen)) :
    (deriveSignatures b).head? = if count = 0 then none else Signature.get? b prefixLen := by
  rw [deriveSignatures, if_neg hhead, h]
  exact head_collectSignatures b prefixLen count

/-- A count that is refused leaves the list empty. -/
theorem derive_of_refused (b : Bytes) (hhead : b.head? ≠ some 0x81)
    (h : decodeShortvec b = none) : deriveSignatures b = [] := by
  rw [deriveSignatures, if_neg hhead, h]

/-- An unmarked first byte is the count. -/
theorem decodeShortvec_one (x : UInt8) (rest : Bytes) (hx : x.toNat < 128) :
    decodeShortvec (x :: rest) = some (Varint.value [x], 1) := by
  have hterm : Varint.Terminated [x] := (Varint.terminated_unmarked x [] hx).mpr rfl
  have hnarrow : Narrow 0 [x] := by
    rw [Narrow, List.length_singleton]
    omega
  rw [← List.singleton_append, decodeShortvec_eq [x] rest hterm, if_pos hnarrow]
  rfl

/-- A marked byte and an unmarked one are the count. -/
theorem decodeShortvec_two (x y : UInt8) (rest : Bytes) (hx : ¬ x.toNat < 128)
    (hy : y.toNat < 128) :
    decodeShortvec (x :: y :: rest) = some (Varint.value [x, y], 2) := by
  have hterm : Varint.Terminated [x, y] := by
    rw [Varint.terminated_marked x [y] hx, Varint.terminated_unmarked y [] hy]
  have hnarrow : Narrow 0 [x, y] := by
    rw [Narrow, List.length_cons, List.length_singleton]
    omega
  have heq := decodeShortvec_eq [x, y] rest hterm
  rw [if_pos hnarrow] at heq
  exact heq

/-- Behind two marked bytes the third has to be at most 3. -/
theorem decodeShortvec_three (x y z : UInt8) (rest : Bytes) (hx : ¬ x.toNat < 128)
    (hy : ¬ y.toNat < 128) :
    decodeShortvec (x :: y :: z :: rest)
      = if z.toNat ≤ 3 then some (Varint.value [x, y, z], 3) else none := by
  by_cases hz : z.toNat < 128
  · have hterm : Varint.Terminated [x, y, z] := by
      rw [Varint.terminated_marked x [y, z] hx, Varint.terminated_marked y [z] hy,
        Varint.terminated_unmarked z [] hz]
    have hnarrow : Narrow 0 [x, y, z] ↔ z.toNat ≤ 3 := by
      simp only [Narrow, List.length_cons, List.length_nil, List.getLastD_cons, List.getLastD_nil,
        UInt8.le_iff_toNat_le]
      exact ⟨fun h => h.2 trivial, fun h => ⟨Nat.le_refl 3, fun _ => h⟩⟩
    have heq := decodeShortvec_eq [x, y, z] rest hterm
    simp only [hnarrow] at heq
    exact heq
  · -- A third marked byte, and there is no fourth round.
    rw [if_neg (by omega), decodeShortvec, List.take_succ_cons, List.take_succ_cons,
      List.take_succ_cons, List.take_zero]
    simp only [decodeShortvecLoop, Varint.and_mark_eq_zero, hx, hy, hz, if_false]

/-- Marked bytes up to the end are no count. -/
theorem decodeShortvec_cut (b : Bytes) (hb : b.length ≤ 2) (hmarked : ∀ x ∈ b, ¬ x.toNat < 128) :
    decodeShortvec b = none := by
  rcases b with _ | ⟨x, _ | ⟨y, _ | ⟨z, rest⟩⟩⟩
  · rfl
  · have hx := hmarked x List.mem_cons_self
    simp only [decodeShortvec, List.take_succ_cons, List.take_nil, decodeShortvecLoop,
      Varint.and_mark_eq_zero, hx, if_false]
  · have hx := hmarked x List.mem_cons_self
    have hy := hmarked y (List.mem_cons_of_mem x List.mem_cons_self)
    simp only [decodeShortvec, List.take_succ_cons, List.take_nil, decodeShortvecLoop,
      Varint.and_mark_eq_zero, hx, hy, if_false]
  · simp only [List.length_cons] at hb
    omega

end Update

/-- The slice at offset 1 and the one behind the count are the same when the
    bytes repeat. -/
theorem slice_eq_iff (b : Bytes) (p : Nat) (hone : 1 + 64 ≤ b.length) (hp : p + 64 ≤ b.length)
    (hpos : 1 ≤ p) : Signature.slice b 1 hone = Signature.slice b p hp ↔ Repeats b (p - 1) := by
  have hstart : 1 + (p - 1) = p := by omega
  rw [Signature.ext_iff, Repeats, hstart]
  simp only [Signature.slice]
  constructor
  · intro h i hi
    have hget := congrArg (fun l : Bytes => l[i]?) h
    simpa only [List.getElem?_take, hi, if_true, List.getElem?_drop] using hget
  · intro h
    refine List.ext_getElem? (fun i => ?_)
    rw [List.getElem?_take, List.getElem?_take]
    by_cases hi : i < 64
    · rw [if_pos hi, if_pos hi, List.getElem?_drop, List.getElem?_drop, h i hi]
    · rw [if_neg hi, if_neg hi]

/-- What stands at offset 1 is what stands behind the count exactly when
    nothing stands there that counts, or the bytes repeat. -/
theorem first_at_one_iff (b : Bytes) (count p : Nat) (hpos : 1 ≤ p) :
    (∀ s, (if count = 0 then none else Signature.get? b p) = some s →
      (Signature.get? b 1).getD Signature.zero = s) ↔
    count = 0 ∨ b.length < p + 64 ∨ Repeats b (p - 1) := by
  by_cases hcount : count = 0
  · simp only [hcount, if_true, reduceCtorEq, false_implies, implies_true, true_or]
  by_cases hfit : p + 64 ≤ b.length
  · have hone : 1 + 64 ≤ b.length := by omega
    have hlen : ¬ b.length < p + 64 := by omega
    simp only [hcount, if_false, Signature.get?, dif_pos hfit, dif_pos hone, Option.getD_some,
      Option.some.injEq, forall_eq', hlen, false_or]
    exact slice_eq_iff b p hone hfit hpos
  · have hlen : b.length < p + 64 := by omega
    simp only [hcount, if_false, Signature.get?, dif_neg hfit, reduceCtorEq, false_implies,
      implies_true, hlen, true_or, or_true]

/-- In a version-1 container both accessors start where the announced
    signatures do. -/
theorem signature_first_v1 (u : TransactionUpdate) (hhead : u.bytes.head? = some 0x81)
    (s : Signature) (h : (Update.deriveSignatures u.bytes).head? = some s) : u.signature = s := by
  by_cases hfit : 64 * (u.bytes[1]?.getD 0).toNat ≤ u.bytes.length
  · -- The first one listed stands where the list starts, which is where `signature` looks.
    rcases Update.derive_v1 u.bytes hhead hfit with ⟨hat, _⟩
    rcases hlist : Update.deriveSignatures u.bytes with _ | ⟨t, ts⟩
    · rw [hlist, List.head?_nil] at h
      cases h
    rw [hlist, List.head?_cons, Option.some.injEq] at h
    subst h
    rw [hlist, List.flatMap_cons, at_append] at hat
    simp only [TransactionUpdate.signature, hhead, if_true, checkedSub, hfit, Option.bind_some,
      Signature.get?_of_at u.bytes _ t hat.1, Option.getD_some]
  · rw [Update.deriveSignatures, if_pos hhead, dif_neg hfit] at h
    cases h

/-- A marked byte is worth nothing when only the mark is set. -/
theorem marked_eq_iff (x : UInt8) (hx : ¬ x.toNat < 128) : x = 0x80 ↔ x.toNat % 128 = 0 := by
  have hlt := x.toNat_lt
  rw [← UInt8.toNat_inj, show (0x80 : UInt8).toNat = 128 from rfl]
  omega

/-- Nothing is listed of a container that ends inside its count. -/
theorem firstInPlace_short (b : Bytes) (h : b.length ≤ 2) : FirstInPlace b := by
  have hwidth : 2 ≤ countWidth b := by
    unfold countWidth
    split
    · exact Nat.le_refl 2
    · exact Nat.le_succ 2
  exact Or.inr (Or.inr (Or.inl (by omega)))

/-- A count of two bytes. -/
theorem firstInPlace_two (x y : UInt8) (rest : Bytes) (hhead : x ≠ 0x81) (hx : ¬ x.toNat < 128)
    (hy : y.toNat < 128) :
    FirstInPlace (x :: y :: rest) ↔ Varint.value [x, y] = 0 ∨
      (x :: y :: rest).length < 2 + 64 ∨ Repeats (x :: y :: rest) (2 - 1) := by
  have hwidth : countWidth (x :: y :: rest) = 2 := by
    rw [countWidth, if_pos (UInt8.lt_iff_toNat_lt.mpr hy)]
  have hzero : Varint.value [x, y] = 0 ↔ x = 0x80 ∧ y = 0 := by
    rw [marked_eq_iff x hx, ← UInt8.toNat_inj, show (0 : UInt8).toNat = 0 from rfl]
    simp only [Varint.value]
    omega
  have hne : y ≠ 0x80 := by
    rintro rfl
    exact absurd hy (by decide)
  have hlow : ¬ 128 ≤ y.toNat := by omega
  simp only [FirstInPlace, hwidth, hzero, List.head?_cons, Option.some.injEq, hhead, false_or,
    List.getD_cons_zero, List.getD_cons_succ, UInt8.lt_iff_toNat_lt, UInt8.le_iff_toNat_le,
    UInt8.reduceToNat, hx, hne, hlow, false_and, or_false]
  exact or_left_comm

/-- A count of three bytes, where the third is small enough. -/
theorem firstInPlace_three (x y z : UInt8) (rest : Bytes) (hhead : x ≠ 0x81)
    (hx : ¬ x.toNat < 128) (hy : ¬ y.toNat < 128) (hz : z.toNat ≤ 3) :
    FirstInPlace (x :: y :: z :: rest) ↔ Varint.value [x, y, z] = 0 ∨
      (x :: y :: z :: rest).length < 3 + 64 ∨ Repeats (x :: y :: z :: rest) (3 - 1) := by
  have hwidth : countWidth (x :: y :: z :: rest) = 3 := by
    rw [countWidth, if_neg (fun h => hy (UInt8.lt_iff_toNat_lt.mp h))]
  have hzero : Varint.value [x, y, z] = 0 ↔ x = 0x80 ∧ y = 0x80 ∧ z = 0 := by
    rw [marked_eq_iff x hx, marked_eq_iff y hy, ← UInt8.toNat_inj (a := z),
      show (0 : UInt8).toNat = 0 from rfl]
    simp only [Varint.value]
    omega
  have hne : y ≠ 0 := by
    rintro rfl
    exact hy (by decide)
  have hsmall : ¬ 3 < z.toNat := by omega
  simp only [FirstInPlace, hwidth, hzero, List.head?_cons, Option.some.injEq, hhead, false_or,
    List.getD_cons_zero, List.getD_cons_succ, UInt8.lt_iff_toNat_lt, UInt8.reduceToNat, hx, hne,
    hsmall, and_false]
  exact or_left_comm

/-- Behind a count of more than one byte, the two accessors agree when nothing
    is listed or the bytes repeat. -/
theorem signature_first_marked (x : UInt8) (rest : Bytes) (hhead : x ≠ 0x81)
    (hx : ¬ x.toNat < 128) :
    (∀ s, (Update.deriveSignatures (x :: rest)).head? = some s →
      (Signature.get? (x :: rest) 1).getD Signature.zero = s) ↔ FirstInPlace (x :: rest) := by
  have hhead' : ∀ tail, (x :: tail : Bytes).head? ≠ some 0x81 := by
    intro tail heq
    exact hhead (Option.some.inj heq)
  -- A count that is refused lists nothing.
  have hrefused : ∀ tail, Update.decodeShortvec (x :: tail) = none →
      FirstInPlace (x :: tail) →
      ((∀ s, (Update.deriveSignatures (x :: tail)).head? = some s →
        (Signature.get? (x :: tail) 1).getD Signature.zero = s) ↔ FirstInPlace (x :: tail)) := by
    intro tail hnone hplace
    rw [Update.derive_of_refused _ (hhead' tail) hnone]
    refine ⟨fun _ => hplace, fun _ s hs => ?_⟩
    cases hs
  rcases rest with _ | ⟨y, rest⟩
  · refine hrefused [] (Update.decodeShortvec_cut [x] (Nat.le_succ 1) ?_)
      (firstInPlace_short [x] (Nat.le_succ 1))
    intro b hb
    rwa [List.mem_singleton.mp hb]
  by_cases hy : y.toNat < 128
  · rw [Update.head_of_count _ _ _ (hhead' _) (Update.decodeShortvec_two x y rest hx hy),
      firstInPlace_two x y rest hhead hx hy]
    exact first_at_one_iff _ _ 2 (by decide)
  rcases rest with _ | ⟨z, rest⟩
  · refine hrefused [y] (Update.decodeShortvec_cut [x, y] (Nat.le_refl 2) ?_)
      (firstInPlace_short [x, y] (Nat.le_refl 2))
    intro b hb
    rcases List.mem_cons.mp hb with rfl | hb
    · exact hx
    · rwa [List.mem_singleton.mp hb]
  by_cases hz : z.toNat ≤ 3
  · have hthree := Update.decodeShortvec_three x y z rest hx hy
    rw [if_pos hz] at hthree
    rw [Update.head_of_count _ _ _ (hhead' _) hthree,
      firstInPlace_three x y z rest hhead hx hy hz]
    exact first_at_one_iff _ _ 3 (by decide)
  · have hthree := Update.decodeShortvec_three x y z rest hx hy
    rw [if_neg hz] at hthree
    refine hrefused _ hthree (Or.inr (Or.inr (Or.inr (Or.inr (Or.inl ⟨?_, ?_⟩)))))
    · exact UInt8.le_iff_toNat_le.mpr (Nat.le_of_not_lt hy)
    · exact UInt8.lt_iff_toNat_lt.mpr (Nat.lt_of_not_le hz)

/-- For an update without signatures of the server's, the fast accessor names
    the first signature of the list exactly when that stands where it looks. -/
theorem signature_first_iff (u : TransactionUpdate) (h : u.providedSignatures = []) :
    (∀ s, u.signatures.head? = some s → u.signature = s) ↔ FirstInPlace u.bytes := by
  have hderive : u.signatures = Update.deriveSignatures u.bytes := by
    simp only [TransactionUpdate.signatures, h, ne_eq, not_true_eq_false, if_false]
  rw [hderive]
  by_cases hhead : u.bytes.head? = some 0x81
  · exact ⟨fun _ => Or.inl hhead, fun _ => signature_first_v1 u hhead⟩
  rw [signature_of_counted u hhead]
  rcases hbytes : u.bytes with _ | ⟨x, rest⟩
  · refine ⟨fun _ => Or.inr (Or.inl (by decide)), fun _ s hs => ?_⟩
    cases hs
  rw [hbytes] at hhead
  by_cases hx : x.toNat < 128
  · refine ⟨fun _ => Or.inr (Or.inl (UInt8.lt_iff_toNat_lt.mpr hx)), fun _ => ?_⟩
    rw [Update.head_of_count _ _ _ hhead (Update.decodeShortvec_one x rest hx)]
    refine (first_at_one_iff _ _ 1 (Nat.le_refl 1)).mpr (Or.inr (Or.inr ?_))
    -- Nothing is moved by a count of one byte.
    intro i _
    rfl
  · refine signature_first_marked x rest ?_ hx
    rintro rfl
    exact hhead rfl

/-- A container whose count is written in two bytes. -/
def wideCount : Bytes := [0x82, 0x00] ++ List.replicate 128 5 ++ [1, 0, 1]

def wideCountUpdate : TransactionUpdate where
  slot := 7
  bytes := wideCount
  providedSignatures := []
  filters := []
  createdAt := none
  receivedAt := 0

set_option maxRecDepth 4000 in
/-- The fast accessor returns a byte of the count and the signature less its
    last byte. -/
theorem wideCount_signature :
    ¬ (∀ s, wideCountUpdate.signatures.head? = some s → wideCountUpdate.signature = s) := by
  intro h
  have hfirst := h ⟨List.replicate 64 5, rfl⟩ rfl
  exact absurd hfirst (by decide)

set_option maxRecDepth 4000 in
/-- With the count in one byte it is the first signature. -/
theorem plainCount_signature :
    let u := { wideCountUpdate with bytes := [0x02] ++ List.replicate 128 5 ++ [1, 0, 1] }
    (∀ s, u.signatures.head? = some s → u.signature = s) ∧ u.signatures.length = 2 ∧
      u.signature.bytes = List.replicate 64 5 :=
  ⟨(signature_first_iff _ rfl).mpr (Or.inr (Or.inl (by decide))), rfl, rfl⟩

end ShredStream
