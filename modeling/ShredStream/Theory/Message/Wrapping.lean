import ShredStream.Core.Wrapping
import ShredStream.Theory.Message.Layout

/-!
# Pointer Widths

A signature count has up to 28 bits, and the message starts 64 bytes behind
the count for each signature. That takes 34 bits, so on a target with 32-bit
pointers a large count wraps around and the start of the message may come out
inside the transaction. `message_bytes` then returns a slice that a 64-bit
target refuses to return.

The counts that fit are those below 2^26, and these can be told by the fourth
byte of the transaction, which holds the bits from 21 on.

## Main definitions

* `Fits`: The result does not depend on the width, nor does anything wrap.
* `Overflowing`: A transaction that announces 2^26 signatures or more.

## Theorems

* `shortvec_toNat`: Reading a count wraps nothing.
* `messageBytes_eq`: What `message_bytes` returns at a width.
* `messageBytes_wide`: On a 64-bit target nothing wraps.
* `messageBytes_agree_iff`: When the results are the same.
* `fits_iff`: When moreover nothing wraps on a 32-bit target.
* `hugeCount_differs`: A transaction for which it does.
-/

namespace ShredStream

namespace Wrapping

open Message Cursor

/-- A result whose numbers are words, as natural numbers. -/
def natural {w : Nat} (r : Result (Usize w × Usize w)) : Result (Nat × Nat) :=
  r.map (fun p => (p.1.toNat, p.2.toNat))

/-- On a target with 32-bit pointers and on one with 64-bit pointers the
    result is the same, and where the count is read the start of the message
    fits in 32 bits. -/
structure Fits (tx : Bytes) : Prop where
  same : messageBytes 32 tx = messageBytes 64 tx
  fits : ∀ n sz : Usize 32, tx.head? ≠ some 0x81 →
    shortvec tx 0 "signature count" = .ok (n, sz) → sz.toNat + n.toNat * 64 ≤ 2 ^ 32 - 1

/-- The transaction starts with a count of four bytes, the last of which says
    that the count is 2^26 or more. -/
def Overflowing (tx : Bytes) : Prop :=
  tx.head? ≠ some 0x81 ∧ ∃ a b c d rest, tx = a :: b :: c :: d :: rest ∧
    0x80 ≤ a ∧ 0x80 ≤ b ∧ 0x80 ≤ c ∧ 0x20 ≤ d ∧ d < 0x80

/-! ### Reading a count -/

/-- A group shifted into a word loses no bits when there is room. -/
theorem toNat_or_group {w : Nat} (value : Usize w) (shift : Nat) (b : UInt8)
    (hroom : shift + 7 ≤ w) :
    (value ||| (BitVec.ofNat w (b &&& 0x7f).toNat <<< shift)).toNat
      = value.toNat ||| (b &&& 0x7f).toNat <<< shift := by
  have hgroup : (b &&& 0x7f).toNat < 2 ^ 7 := by
    rw [Varint.toNat_and_group]
    exact Nat.mod_lt _ (by decide)
  have hshifted : (b &&& 0x7f).toNat <<< shift < 2 ^ w := by
    rw [Nat.shiftLeft_eq]
    calc (b &&& 0x7f).toNat * 2 ^ shift
        < 2 ^ 7 * 2 ^ shift := Nat.mul_lt_mul_of_pos_right hgroup (Nat.two_pow_pos shift)
      _ = 2 ^ (shift + 7) := by rw [← Nat.pow_add, Nat.add_comm]
      _ ≤ 2 ^ w := Nat.pow_le_pow_right (by decide) hroom
  have hsmall : (b &&& 0x7f).toNat < 2 ^ w :=
    hgroup.trans_le (Nat.pow_le_pow_right (by decide) (by omega))
  rw [BitVec.toNat_or, BitVec.toNat_shiftLeft, BitVec.toNat_ofNat, Nat.mod_eq_of_lt hsmall,
    Nat.mod_eq_of_lt hshifted]

/-- The loop of `shortvec` wraps nothing: four groups have 28 bits. -/
theorem shortvecLoop_toNat {w : Nat} (buf : Bytes) (what : String) (start : Usize w)
    (hw : 28 ≤ w) (rounds : Nat) : ∀ (value : Usize w) (shift : Nat) (o : Usize w),
      shift + 7 * rounds = 28 → start.toNat ≤ o.toNat → o.toNat + rounds < 2 ^ w →
        natural (shortvecLoop buf what start rounds value shift o)
          = Message.shortvecLoop buf what start.toNat rounds value.toNat shift o.toNat := by
  induction rounds with
  | zero =>
      intro value shift o _ _ _
      rfl
  | succ rounds ih =>
      intro value shift o hshift hstart hroom
      have hone : (1 : Usize w).toNat = 1 := BitVec.toNat_one (by omega)
      have hnext : (o + 1).toNat = o.toNat + 1 := by
        rw [BitVec.toNat_add_of_lt (by rw [hone]; omega), hone]
      rw [shortvecLoop, Message.shortvecLoop]
      cases buf[o.toNat]? with
      | none => rfl
      | some b =>
          have hvalue := toNat_or_group value shift b (by omega)
          simp only
          by_cases hb : b &&& 0x80 = 0
          · rw [if_pos hb, if_pos hb]
            have hsize : (o + 1 - start).toNat = o.toNat + 1 - start.toNat := by
              rw [BitVec.toNat_sub_of_le (by rw [BitVec.le_def, hnext]; omega), hnext]
            simp only [natural, Except.map, hvalue, hsize]
          rw [if_neg hb, if_neg hb]
          by_cases hlong : shift + 7 > 21
          · rw [if_pos hlong, if_pos hlong]
            rfl
          · rw [if_neg hlong, if_neg hlong, ih _ (shift + 7) (o + 1) (by omega) (by omega)
              (by omega), hvalue, hnext]

/-- A number that fits is the word it is made. -/
theorem toNat_ofNat_of_lt (w n : Nat) (h : n < 2 ^ w) : (BitVec.ofNat w n).toNat = n := by
  rw [BitVec.toNat_ofNat, Nat.mod_eq_of_lt h]

theorem shortvec_toNat {w : Nat} (hw : 28 ≤ w) (tx : Bytes) (what : String) :
    natural (shortvec tx (0 : Usize w) what) = Message.shortvec tx 0 what := by
  have hpow : 2 ^ 28 ≤ 2 ^ w := Nat.pow_le_pow_right (by decide) hw
  have hzero : (0 : Usize w).toNat = 0 := Nat.zero_mod _
  rw [shortvec, shortvecLoop_toNat tx what 0 hw 4 0 0 0 rfl (Nat.le_refl _) (by omega), hzero]
  rfl

/-! ### The result at a width -/

/-- The version-1 branch checks its subtraction, and wraps nothing. -/
theorem messageBytes_v1 {w : Nat} (hw : 28 ≤ w) (tx : Bytes) (hlen : tx.length < 2 ^ w)
    (hhead : tx.head? = some 0x81) : messageBytes w tx = Message.messageBytes tx := by
  have hpow : 2 ^ 28 ≤ 2 ^ w := Nat.pow_le_pow_right (by decide) hw
  have hlen' := toNat_ofNat_of_lt w tx.length hlen
  rw [messageBytes, Message.messageBytes, if_pos hhead, if_pos hhead]
  refine bind_congr (fun n => ?_)
  have hn := n.toNat_lt
  have hmul : (64 * BitVec.ofNat w n.toNat).toNat = 64 * n.toNat := by
    have h64 : (64 : Usize w).toNat = 64 := toNat_ofNat_of_lt w 64 (by omega)
    rw [BitVec.toNat_mul, h64, toNat_ofNat_of_lt w n.toNat (by omega), Nat.mod_eq_of_lt (by omega)]
  have h42 : (42 : Usize w).toNat = 42 := toNat_ofNat_of_lt w 42 (by omega)
  simp only
  by_cases hle : 64 * n.toNat ≤ tx.length
  · have hle' : 64 * BitVec.ofNat w n.toNat ≤ BitVec.ofNat w tx.length := by
      rw [BitVec.le_def, hmul, hlen']
      exact hle
    have hsub : (BitVec.ofNat w tx.length - 64 * BitVec.ofNat w n.toNat).toNat
        = tx.length - 64 * n.toNat := by
      rw [BitVec.toNat_sub_of_le hle', hmul, hlen']
    rw [checkedSub, if_pos hle', Message.checkedSub, if_pos hle, Option.filter_some,
      Option.filter_some]
    simp only [BitVec.le_def, hsub, h42]
    by_cases hlong : 42 ≤ tx.length - 64 * n.toNat
    · simp only [hlong, decide_true, if_true, hsub]
    · simp only [hlong, decide_false, Bool.false_eq_true, if_false]
  · have hle' : ¬ 64 * BitVec.ofNat w n.toNat ≤ BitVec.ofNat w tx.length := by
      rw [BitVec.le_def, hmul, hlen']
      exact hle
    rw [checkedSub, if_neg hle', Message.checkedSub, if_neg hle, Option.filter_none,
      Option.filter_none]

/-- In the other branch the start of the message is cut to the width. -/
theorem messageBytes_eq {w : Nat} (hw : 28 ≤ w) (tx : Bytes) (hhead : tx.head? ≠ some 0x81) :
    messageBytes w tx = match Message.shortvec tx 0 "signature count" with
      | .error e => .error e
      | .ok (n, sz) =>
        if (sz + n * 64) % 2 ^ w ≤ tx.length then .ok (tx.drop ((sz + n * 64) % 2 ^ w))
        else .error ⟨"signatures do not fit"⟩ := by
  have hpow : 2 ^ 28 ≤ 2 ^ w := Nat.pow_le_pow_right (by decide) hw
  have h64 : (64 : Usize w).toNat = 64 := toNat_ofNat_of_lt w 64 (by omega)
  rw [messageBytes, if_neg hhead, ← shortvec_toNat hw]
  rcases shortvec tx (0 : Usize w) "signature count" with e | ⟨n, sz⟩
  · rfl
  · have hstart : (sz + n * 64).toNat = (sz.toNat + n.toNat * 64) % 2 ^ w := by
      rw [BitVec.toNat_add, BitVec.toNat_mul, h64, Nat.add_mod_mod]
    simp only [natural, Except.map, ok_bind, hstart]

/-- A count is below 2^28 and takes at most four bytes. -/
theorem shortvec_lt (tx : Bytes) (n sz : Nat) (what : String)
    (h : Message.shortvec tx 0 what = .ok (n, sz)) : n < 2 ^ 28 ∧ sz ≤ 4 := by
  rcases shortvec_sound tx 0 n sz what h with ⟨v, ⟨_, hlen, hvalue⟩, _, hsz⟩
  have hlt := Varint.value_lt v
  have hpow : 128 ^ v.length ≤ 128 ^ 4 := Nat.pow_le_pow_right (by decide) hlen
  omega

/-- On a 64-bit target nothing wraps, so this is the function over the
    natural numbers. -/
theorem messageBytes_wide (tx : Bytes) (h : tx.length < 2 ^ 64) :
    messageBytes 64 tx = Message.messageBytes tx := by
  by_cases hhead : tx.head? = some 0x81
  · exact messageBytes_v1 (by decide) tx h hhead
  rw [messageBytes_eq (by decide) tx hhead, Message.messageBytes, if_neg hhead]
  rcases hcount : Message.shortvec tx 0 "signature count" with e | ⟨n, sz⟩
  · rfl
  · rcases shortvec_lt tx n sz _ hcount with ⟨hn, hsz⟩
    simp only [ok_bind, Nat.mod_eq_of_lt (show sz + n * 64 < 2 ^ 64 by omega)]

/-! ### The same at both widths -/

/-- The results are the same exactly when the start fits in 32 bits, or what
    is left of it is still behind the end of the transaction. -/
theorem messageBytes_agree_iff (tx : Bytes) (h : tx.length < 2 ^ 31) :
    messageBytes 32 tx = messageBytes 64 tx ↔ ∀ n sz, tx.head? ≠ some 0x81 →
      Message.shortvec tx 0 "signature count" = .ok (n, sz) →
        sz + n * 64 < 2 ^ 32 ∨ tx.length < (sz + n * 64) % 2 ^ 32 := by
  rw [messageBytes_wide tx (by omega)]
  by_cases hhead : tx.head? = some 0x81
  · exact iff_of_true (messageBytes_v1 (by decide) tx (by omega) hhead)
      (fun n sz hne => absurd hhead hne)
  rw [messageBytes_eq (by decide) tx hhead, Message.messageBytes, if_neg hhead]
  rcases hcount : Message.shortvec tx 0 "signature count" with e | ⟨n, sz⟩
  · refine iff_of_true rfl (fun n sz _ hok => ?_)
    cases hok
  have hone : (∀ n' sz', tx.head? ≠ some 0x81 →
      (.ok (n, sz) : Result (Nat × Nat)) = .ok (n', sz') →
        sz' + n' * 64 < 2 ^ 32 ∨ tx.length < (sz' + n' * 64) % 2 ^ 32) ↔
      sz + n * 64 < 2 ^ 32 ∨ tx.length < (sz + n * 64) % 2 ^ 32 := by
    refine ⟨fun hall => hall n sz hhead rfl, fun hor n' sz' _ heq => ?_⟩
    cases heq
    exact hor
  rw [hone, ok_bind]
  simp only
  by_cases hfit : sz + n * 64 < 2 ^ 32
  · exact iff_of_true (by rw [Nat.mod_eq_of_lt hfit]) (Or.inl hfit)
  -- The start is past the end, so only an error is the right result.
  rw [if_neg (show ¬ sz + n * 64 ≤ tx.length by omega), or_iff_right hfit]
  by_cases hle : (sz + n * 64) % 2 ^ 32 ≤ tx.length
  · rw [if_pos hle]
    exact iff_of_false (fun heq => by cases heq) (Nat.not_lt.mpr hle)
  · rw [if_neg hle]
    exact iff_of_true rfl (Nat.lt_of_not_le hle)

/-- A count of four bytes whose last byte is 32 or more is 2^26 or more, and
    no other is. -/
theorem large_iff (v : Bytes) (h : Length (Varint.value v) v) : 2 ^ 26 ≤ Varint.value v ↔
    ∃ a b c d, v = [a, b, c, d] ∧ 0x80 ≤ a ∧ 0x80 ≤ b ∧ 0x80 ≤ c ∧ 0x20 ≤ d ∧ d < 0x80 := by
  rcases h with ⟨hterm, hlen, _⟩
  simp only [UInt8.le_iff_toNat_le, UInt8.lt_iff_toNat_lt, UInt8.toNat_ofNat]
  constructor
  · intro hlarge
    -- Three groups or fewer have less than 26 bits.
    have hlong : ¬ v.length ≤ 3 := by
      intro hle
      have hlt := Varint.value_lt v
      have hpow : 128 ^ v.length ≤ 128 ^ 3 := Nat.pow_le_pow_right (by decide) hle
      omega
    rcases v with _ | ⟨a, _ | ⟨b, _ | ⟨c, _ | ⟨d, _ | ⟨e, rest⟩⟩⟩⟩⟩ <;>
      simp only [List.length_cons, List.length_nil] at hlong hlen <;> try omega
    have ha : ¬ a.toNat < 128 := fun hlt => by
      cases (Varint.terminated_unmarked a _ hlt).mp hterm
    rw [Varint.terminated_marked a _ ha] at hterm
    have hb : ¬ b.toNat < 128 := fun hlt => by
      cases (Varint.terminated_unmarked b _ hlt).mp hterm
    rw [Varint.terminated_marked b _ hb] at hterm
    have hc : ¬ c.toNat < 128 := fun hlt => by
      cases (Varint.terminated_unmarked c _ hlt).mp hterm
    rw [Varint.terminated_marked c _ hc] at hterm
    have hd : d.toNat < 128 := by
      by_contra hge
      rw [Varint.terminated_marked d _ hge] at hterm
      exact hterm
    simp only [Varint.value] at hlarge
    exact ⟨a, b, c, d, rfl, by omega, by omega, by omega, by omega, hd⟩
  · rintro ⟨a, b, c, d, rfl, ha, hb, hc, hd, hlt⟩
    simp only [Varint.value]
    omega

/-- The transactions with such a count. -/
theorem overflowing_iff (tx : Bytes) : Overflowing tx ↔ tx.head? ≠ some 0x81 ∧
    ∃ n sz, Message.shortvec tx 0 "signature count" = .ok (n, sz) ∧ 2 ^ 26 ≤ n := by
  refine and_congr_right (fun _ => ?_)
  constructor
  · rintro ⟨a, b, c, d, rest, rfl, hbytes⟩
    have hlength : Length (Varint.value [a, b, c, d]) [a, b, c, d] := by
      rcases hbytes with ⟨ha, hb, hc, _, hd⟩
      rw [UInt8.le_iff_toNat_le] at ha hb hc
      refine ⟨?_, Nat.le_refl 4, rfl⟩
      rw [Varint.terminated_marked a _ (Nat.not_lt.mpr ha),
        Varint.terminated_marked b _ (Nat.not_lt.mpr hb),
        Varint.terminated_marked c _ (Nat.not_lt.mpr hc)]
      exact (Varint.terminated_unmarked d [] (UInt8.lt_iff_toNat_lt.mp hd)).mpr rfl
    refine ⟨_, _, shortvec_complete _ _ 0 _ _ hlength (at_zero [a, b, c, d] rest), ?_⟩
    exact (large_iff _ hlength).mpr ⟨a, b, c, d, rfl, hbytes⟩
  · rintro ⟨n, sz, hcount, hlarge⟩
    rcases shortvec_sound tx 0 n sz _ hcount with ⟨v, ⟨hterm, hlen, rfl⟩, hat, _⟩
    rcases (large_iff v ⟨hterm, hlen, rfl⟩).mp hlarge with ⟨a, b, c, d, rfl, hbytes⟩
    exact ⟨a, b, c, d, _, at_front tx _ hat, hbytes⟩

/-- Whatever a target's pointers are, the result is the same and nothing wraps
    exactly when the transaction does not announce 2^26 signatures. -/
theorem fits_iff (tx : Bytes) (h : tx.length < 2 ^ 31) : Fits tx ↔ ¬ Overflowing tx := by
  have hread : ∀ n sz : Usize 32, shortvec tx 0 "signature count" = .ok (n, sz) →
      Message.shortvec tx 0 "signature count" = .ok (n.toNat, sz.toNat) := by
    intro n sz hcount
    rw [← shortvec_toNat (show 28 ≤ 32 by decide), hcount]
    rfl
  rw [overflowing_iff]
  constructor
  · rintro hfits ⟨hhead, n, sz, hcount, hlarge⟩
    have hcount' := shortvec_toNat (show 28 ≤ 32 by decide) tx "signature count"
    rw [hcount] at hcount'
    rcases hword : shortvec tx (0 : Usize 32) "signature count" with e | ⟨n', sz'⟩
    · rw [hword] at hcount'
      cases hcount'
    · rw [hword] at hcount'
      cases hcount'
      have hfit := hfits.fits n' sz' hhead hword
      simp only at hlarge
      omega
  · intro hsmall
    have hcounts : ∀ n sz, tx.head? ≠ some 0x81 →
        Message.shortvec tx 0 "signature count" = .ok (n, sz) → sz + n * 64 < 2 ^ 32 := by
      intro n sz hhead hcount
      have hlt : ¬ 2 ^ 26 ≤ n := fun hle => hsmall ⟨hhead, n, sz, hcount, hle⟩
      have hsz := (shortvec_lt tx n sz _ hcount).2
      omega
    refine ⟨(messageBytes_agree_iff tx h).mpr fun n sz hhead hcount =>
      Or.inl (hcounts n sz hhead hcount), fun n sz hhead hcount => ?_⟩
    have hlt := hcounts n.toNat sz.toNat hhead (hread n sz hcount)
    omega

/-- A transaction that announces 2^26 signatures in the four bytes it has. -/
def hugeCount : Bytes := [0x80, 0x80, 0x80, 0x20]

/-- With 32-bit pointers its message is what is behind the count; with 64-bit
    pointers its signatures do not fit. -/
theorem hugeCount_differs : hugeCount.length < 2 ^ 31 ∧ messageBytes 32 hugeCount = .ok [] ∧
    messageBytes 64 hugeCount = .error ⟨"signatures do not fit"⟩ ∧ ¬ Fits hugeCount := by
  refine ⟨by decide, rfl, rfl, fun h => ?_⟩
  cases h.same

/-- Two bytes with a count of one: there is no room for the signature, and
    both widths say so. -/
theorem oneSignature_fits : Fits [1, 0] ∧
    messageBytes 32 [1, 0] = .error ⟨"signatures do not fit"⟩ ∧
    messageBytes 64 [1, 0] = .error ⟨"signatures do not fit"⟩ := by
  refine ⟨(fits_iff [1, 0] (by decide)).mpr ?_, rfl, rfl⟩
  rintro ⟨_, a, b, c, d, rest, heq, _⟩
  cases heq

end Wrapping

end ShredStream
