import Mathlib.Data.Nat.Digits.Defs

/-!
# Numbers in Bytes

The two ways binary formats write a natural number. A fixed-width
little-endian field is the list of base-256 digits, padded to its width; a
varint is the list of base-128 digits, each but the last marked by the high
bit of its byte, so that the field ends itself.

`leNat` is Mathlib's `Nat.ofDigits` at base 256, and `leBytes` its inverse at
a fixed width. The varint side separates the two things a decoder does:
`Terminated` says where a field ends and `value` what it is worth. Every
number has many terminated fields, because trailing zero groups are allowed;
`encode` has none, and `encode_length_le` is why a bound on the number bounds
the field.

`groups_or` is the arithmetic behind the usual decoding loop, which collects
the groups with shifts and bitwise or instead of multiplications and sums.

## Main definitions

* `leNat`, `leBytes`: Little-endian fields.
* `Varint.value`: The number a varint field is worth.
* `Varint.Terminated`: The bytes are exactly one field.
* `Varint.split`: The field a byte string starts with.
* `Varint.encode`: The minimal field of a number.

## Theorems

* `leNat_leBytes`, `leBytes_leNat`: The two are inverse at a fixed width.
* `Varint.split_append`: A terminated field is split off as it is.
* `Varint.value_encode`, `Varint.terminated_encode`: Encoding is correct.
* `Varint.encode_length_le`: A small number has a short field.
* `Varint.groups_or`: Shifting and or-ing collects the next group.
-/

namespace ShredStream

/-- The number a little-endian field holds. -/
def leNat (bs : List UInt8) : Nat :=
  Nat.ofDigits 256 (bs.map UInt8.toNat)

/-- The little-endian field of `k` bytes that holds `n`. -/
def leBytes : Nat → Nat → List UInt8
  | 0, _ => []
  | k + 1, n => UInt8.ofNat n :: leBytes k (n / 256)

@[simp]
theorem leNat_nil : leNat [] = 0 := rfl

theorem leNat_cons (b : UInt8) (bs : List UInt8) :
    leNat (b :: bs) = b.toNat + 256 * leNat bs := by
  simp only [leNat, List.map_cons, Nat.ofDigits_cons]

@[simp]
theorem length_leBytes (k n : Nat) : (leBytes k n).length = k := by
  induction k generalizing n with
  | zero => rfl
  | succ k ih => simp only [leBytes, List.length_cons, ih]

/-- Reading a field back gives the number, up to what its width can hold. -/
theorem leNat_leBytes (k n : Nat) : leNat (leBytes k n) = n % 256 ^ k := by
  induction k generalizing n with
  | zero => rw [leBytes, leNat_nil, Nat.pow_zero, Nat.mod_one]
  | succ k ih =>
      -- `ofNat` keeps the low byte, and the rest is the field of the quotient.
      have hbyte : (UInt8.ofNat n).toNat = n % 256 := UInt8.toNat_ofNat'
      have hpow : 256 ^ (k + 1) = 256 * 256 ^ k := Nat.pow_succ'
      rw [leBytes, leNat_cons, ih, hbyte, hpow, Nat.mod_mul]

theorem leNat_leBytes_of_lt (k n : Nat) (h : n < 256 ^ k) : leNat (leBytes k n) = n := by
  rw [leNat_leBytes, Nat.mod_eq_of_lt h]

/-- Writing a field's number at the field's width gives the field back. -/
theorem leBytes_leNat (bs : List UInt8) : leBytes bs.length (leNat bs) = bs := by
  induction bs with
  | nil => rfl
  | cons b bs ih =>
      have hb := b.toNat_lt
      have hdiv : (b.toNat + 256 * leNat bs) / 256 = leNat bs := by omega
      have hbyte : UInt8.ofNat (b.toNat + 256 * leNat bs) = b := by
        rw [← UInt8.toNat_inj, UInt8.toNat_ofNat']
        omega
      rw [List.length_cons, leBytes, leNat_cons, hdiv, ih, hbyte]

namespace Varint

/-- The number a field is worth: its base-128 digits, least significant
    first, with the mark of each byte taken off. -/
def value : List UInt8 → Nat
  | [] => 0
  | b :: bs => b.toNat % 128 + 128 * value bs

/-- The bytes are exactly one field: every byte but the last is marked. -/
def Terminated : List UInt8 → Prop
  | [] => False
  | b :: bs => if b.toNat < 128 then bs = [] else Terminated bs

instance decidableTerminated : DecidablePred Terminated
  | [] => inferInstanceAs (Decidable False)
  | b :: bs =>
    have := decidableTerminated bs
    inferInstanceAs (Decidable (if b.toNat < 128 then bs = [] else Terminated bs))

theorem terminated_unmarked (b : UInt8) (bs : List UInt8) (hb : b.toNat < 128) :
    Terminated (b :: bs) ↔ bs = [] := by
  rw [Terminated, if_pos hb]

theorem terminated_marked (b : UInt8) (bs : List UInt8) (hb : ¬ b.toNat < 128) :
    Terminated (b :: bs) ↔ Terminated bs := by
  rw [Terminated, if_neg hb]

theorem terminated_ne_nil (w : List UInt8) (h : Terminated w) : w ≠ [] := by
  rintro rfl
  exact h

/-- Each byte holds seven bits. -/
theorem value_lt (w : List UInt8) : value w < 128 ^ w.length := by
  induction w with
  | nil => decide
  | cons b bs ih =>
      have hb := Nat.mod_lt b.toNat (show 0 < 128 by decide)
      rw [value, List.length_cons, Nat.pow_succ]
      omega

/-- The field a byte string starts with, and what is behind it. -/
def split : List UInt8 → List UInt8 × List UInt8
  | [] => ([], [])
  | b :: bs =>
    if b.toNat < 128 then ([b], bs) else (b :: (split bs).1, (split bs).2)

theorem split_append (w rest : List UInt8) (h : Terminated w) : split (w ++ rest) = (w, rest) := by
  induction w with
  | nil => exact h.elim
  | cons b bs ih =>
      rw [List.cons_append, split]
      by_cases hb : b.toNat < 128
      · rw [(terminated_unmarked b bs hb).mp h, if_pos hb, List.nil_append]
      · rw [if_neg hb, ih ((terminated_marked b bs hb).mp h)]

/-- The minimal field of a number. -/
def encode (n : Nat) : List UInt8 :=
  if n < 128 then [UInt8.ofNat n] else UInt8.ofNat (n % 128 + 128) :: encode (n / 128)

theorem encode_small (n : Nat) (h : n < 128) : encode n = [UInt8.ofNat n] := by
  rw [encode, if_pos h]

theorem encode_large (n : Nat) (h : ¬ n < 128) :
    encode n = UInt8.ofNat (n % 128 + 128) :: encode (n / 128) := by
  rw [encode, if_neg h]

theorem toNat_marked (n : Nat) : (UInt8.ofNat (n % 128 + 128)).toNat = n % 128 + 128 := by
  rw [UInt8.toNat_ofNat']
  omega

theorem toNat_unmarked (n : Nat) (h : n < 128) : (UInt8.ofNat n).toNat = n := by
  rw [UInt8.toNat_ofNat']
  omega

theorem terminated_encode (n : Nat) : Terminated (encode n) := by
  induction n using Nat.strong_induction_on with
  | _ n ih =>
    by_cases h : n < 128
    · rw [encode_small n h, terminated_unmarked]
      rwa [toNat_unmarked n h]
    · rw [encode_large n h, terminated_marked]
      · exact ih (n / 128) (by omega)
      · rw [toNat_marked]
        omega

theorem value_encode (n : Nat) : value (encode n) = n := by
  induction n using Nat.strong_induction_on with
  | _ n ih =>
    by_cases h : n < 128
    · rw [encode_small n h, value, value, toNat_unmarked n h]
      omega
    · rw [encode_large n h, value, toNat_marked, ih (n / 128) (by omega)]
      omega

/-- A number below `128 ^ (k + 1)` has a field of at most `k + 1` bytes. -/
theorem encode_length_le (k : Nat) : ∀ n, n < 128 ^ (k + 1) → (encode n).length ≤ k + 1 := by
  induction k with
  | zero =>
      intro n h
      rw [encode_small n (by omega)]
      rfl
  | succ k ih =>
      intro n h
      by_cases hs : n < 128
      · rw [encode_small n hs, List.length_singleton]
        omega
      · -- The first byte takes one base-128 digit off.
        have hdiv : n / 128 < 128 ^ (k + 1) := by
          rw [Nat.div_lt_iff_lt_mul (by omega), ← Nat.pow_succ]
          exact h
        have hrest := ih (n / 128) hdiv
        rw [encode_large n hs, List.length_cons]
        omega

/-- A byte is unmarked exactly when its high bit is clear. -/
theorem and_mark_eq_zero (b : UInt8) : b &&& 0x80 = 0 ↔ b.toNat < 128 := by
  have hbits : ∀ n < 256, n &&& 128 = 0 ↔ n < 128 := by decide +kernel
  rw [← UInt8.toNat_inj, UInt8.toNat_and]
  exact hbits b.toNat b.toNat_lt

/-- Taking the mark off leaves the base-128 digit. -/
theorem toNat_and_group (b : UInt8) : (b &&& 0x7f).toNat = b.toNat % 128 := by
  rw [UInt8.toNat_and]
  exact Nat.and_two_pow_sub_one_eq_mod b.toNat 7

/-- Marking an unmarked byte adds 128. -/
theorem toNat_mark_or (b : UInt8) (h : b.toNat < 128) : (0x80 ||| b).toNat = 128 + b.toNat := by
  rw [UInt8.toNat_or]
  exact (Nat.two_pow_add_eq_or_of_lt (i := 7) h 1).symm

/-- Shifting the next group past the ones collected and or-ing it in adds it
    with its weight, since no bit is set twice. -/
theorem groups_or (acc shift : Nat) (b : UInt8) (h : acc < 2 ^ shift) :
    acc ||| (b &&& 0x7f).toNat <<< shift = acc + 2 ^ shift * (b.toNat % 128) := by
  rw [toNat_and_group, Nat.shiftLeft_eq, Nat.mul_comm, Nat.or_comm,
    ← Nat.two_pow_add_eq_or_of_lt h, Nat.add_comm]

/-- A group and what the groups after it are worth, one shift further on. -/
theorem groups_cons (acc shift : Nat) (b : UInt8) (bs : List UInt8) :
    acc + 2 ^ shift * (b.toNat % 128) + 2 ^ (shift + 7) * value bs
      = acc + 2 ^ shift * value (b :: bs) := by
  rw [value, Nat.pow_add, Nat.mul_add, Nat.mul_assoc, Nat.add_assoc]

/-- The collected groups stay below the next shift. -/
theorem groups_lt (acc shift : Nat) (b : UInt8) (h : acc < 2 ^ shift) :
    acc + 2 ^ shift * (b.toNat % 128) < 2 ^ (shift + 7) := by
  have hdigit : b.toNat % 128 < 128 := Nat.mod_lt _ (by omega)
  calc acc + 2 ^ shift * (b.toNat % 128)
      < 2 ^ shift + 2 ^ shift * (b.toNat % 128) := by omega
    _ = 2 ^ shift * (b.toNat % 128 + 1) := by ring
    _ ≤ 2 ^ shift * 128 := Nat.mul_le_mul_left _ hdigit
    _ = 2 ^ (shift + 7) := by rw [Nat.pow_add]

end Varint

end ShredStream
