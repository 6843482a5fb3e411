import Mathlib.Algebra.Order.Field.Basic
import Mathlib.Algebra.Order.Field.Power
import Mathlib.Algebra.Order.Field.Rat
import ShredStream.Theory.Grpc.Step

/-!
# The Bound of the Delay

Each backoff counts one more attempt and draws its delay below a bound that
grows by a factor from attempt to attempt, up to the policy's maximum. The
counter is an unsigned word that saturates; the exponent is a signed one of
the same width. The cast between them changes the sign of everything past
2^31, and there the growth turns into a division.

So the bound obeys its law for the first 2^31 backoffs in a row. After that
it does only where the division cannot be seen: when the factor is one, or
when what is left of the initial delay is still at the maximum.

## Main definitions

* `backedOff`: The client after some backoffs in a row.
* `boundOf`: The bound of the last of them.
* `Lawful`: The bound is in range and has not shrunk.

## Theorems

* `attempt_backedOff`: The counter after some backoffs in a row.
* `boundOf_grown`, `boundOf_wrapped`: The bound on both sides of 2^31.
* `backoffBound_nonneg`, `backoffBound_pos`: The sign of a bound.
* `backoff_lawful_iff`: When the bound obeys its law.
* `wrapped_unlawful`: The default policy after 2^31 backoffs.
-/

namespace ShredStream

namespace Grpc

namespace GrpcClient

/-- The client after `n` backoffs in a row. -/
def backedOff (c : GrpcClient) (n : Nat) : GrpcClient := (fun c => c.backoffDelay.1)^[n] c

/-- The bound below which the `n`-th delay is drawn. -/
def boundOf (c : GrpcClient) (n : Nat) : ℚ := backoffBound c.reconnect (c.backedOff n).attempt

/-- The bound of the `n`-th backoff lies between the initial delay and the
    maximum, and is not below the one before it. -/
structure Lawful (c : GrpcClient) (n : Nat) : Prop where
  least : min c.reconnect.initial.asSecs c.reconnect.max.asSecs ≤ c.boundOf n
  most : c.boundOf n ≤ c.reconnect.max.asSecs
  grows : 2 ≤ n → c.boundOf (n - 1) ≤ c.boundOf n

theorem backedOff_succ (c : GrpcClient) (n : Nat) :
    c.backedOff (n + 1) = (c.backedOff n).backoffDelay.1 := Function.iterate_succ_apply' _ n c

/-! ### The counter and the exponent -/

theorem toNat_saturatingSucc (n : UInt32) :
    (saturatingSucc n).toNat = min (n.toNat + 1) (2 ^ 32 - 1) := by
  have hlt := UInt32.toNat_lt n
  unfold saturatingSucc
  by_cases h : n = 0xFFFFFFFF
  · rw [if_pos h, h]
    rfl
  · rw [if_neg h, UInt32.toNat_add, UInt32.toNat_one]
    have hne : n.toNat ≠ 2 ^ 32 - 1 := fun heq => h (UInt32.toNat_inj.mp heq)
    omega

/-- The counter counts the backoffs, and stays at its last value. -/
theorem attempt_backedOff (c : GrpcClient) (n : Nat) (h0 : c.attempt = 0) :
    (c.backedOff n).attempt.toNat = min n (2 ^ 32 - 1) := by
  induction n with
  | zero =>
      rw [Nat.zero_min]
      exact congrArg UInt32.toNat h0
  | succ n ih =>
      rw [backedOff_succ]
      change (saturatingSucc (c.backedOff n).attempt).toNat = _
      rw [toNat_saturatingSucc, ih]
      omega

theorem toNat_saturatingPred (n : UInt32) (h : 1 ≤ n.toNat) :
    (saturatingPred n).toNat = n.toNat - 1 := by
  have hne : n ≠ 0 := by
    rintro rfl
    rw [UInt32.toNat_zero] at h
    omega
  have hlt := UInt32.toNat_lt n
  rw [saturatingPred, if_neg hne, UInt32.toNat_sub, UInt32.toNat_one]
  omega

/-- A word below 2^31 is cast to itself. -/
theorem toInt_toInt32_of_lt (x : UInt32) (h : x.toNat < 2 ^ 31) : x.toInt32.toInt = x.toNat := by
  change x.toBitVec.toInt = _
  rw [BitVec.toInt_eq_toNat_cond, if_pos (by rw [UInt32.toNat_toBitVec]; omega),
    UInt32.toNat_toBitVec]

/-- A word from 2^31 on is cast to a negative number. -/
theorem toInt_toInt32_of_ge (x : UInt32) (h : 2 ^ 31 ≤ x.toNat) :
    x.toInt32.toInt = x.toNat - 2 ^ 32 := by
  change x.toBitVec.toInt = _
  rw [BitVec.toInt_eq_toNat_cond, if_neg (by rw [UInt32.toNat_toBitVec]; omega),
    UInt32.toNat_toBitVec]
  rfl

/-- Up to 2^31 backoffs the exponent is one less than their number. -/
theorem boundOf_grown (c : GrpcClient) (n : Nat) (h0 : c.attempt = 0) (h1 : 1 ≤ n)
    (hn : n ≤ 2 ^ 31) : c.boundOf n
      = min (c.reconnect.initial.asSecs * c.reconnect.multiplier ^ (n - 1))
        c.reconnect.max.asSecs := by
  have hattempt := attempt_backedOff c n h0
  have hpred := toNat_saturatingPred (c.backedOff n).attempt (by omega)
  rw [boundOf, backoffBound, toInt_toInt32_of_lt _ (by omega), zpow_natCast, hpred, hattempt,
    Nat.min_eq_left (by omega)]

/-- Past that it is negative. -/
theorem boundOf_wrapped (c : GrpcClient) (n : Nat) (h0 : c.attempt = 0) (hn : 2 ^ 31 < n) :
    c.boundOf n = min
      (c.reconnect.initial.asSecs / c.reconnect.multiplier ^ (2 ^ 32 + 1 - min n (2 ^ 32 - 1)))
      c.reconnect.max.asSecs := by
  have hattempt := attempt_backedOff c n h0
  have hpred := toNat_saturatingPred (c.backedOff n).attempt (by omega)
  have hexp : (saturatingPred (c.backedOff n).attempt).toInt32.toInt
      = -((2 ^ 32 + 1 - min n (2 ^ 32 - 1) : Nat) : Int) := by
    rw [toInt_toInt32_of_ge _ (by omega), hpred, hattempt]
    omega
  rw [boundOf, backoffBound, hexp, zpow_neg, zpow_natCast, div_eq_mul_inv]

/-! ### The law -/

theorem asSecs_nonneg (d : Duration) : 0 ≤ d.asSecs := by
  unfold Duration.asSecs
  positivity

theorem asSecs_pos (d : Duration) (h : 0 < d) : 0 < d.asSecs := by
  unfold Duration.asSecs
  positivity

theorem asSecs_lt (d e : Duration) (h : d < e) : d.asSecs < e.asSecs :=
  div_lt_div_of_pos_right (Nat.cast_lt.mpr h) (by positivity)

/-- With a factor that is not negative, no bound is. -/
theorem backoffBound_nonneg (policy : ReconnectPolicy) (attempt : UInt32)
    (hmultiplier : 0 ≤ policy.multiplier) : 0 ≤ backoffBound policy attempt :=
  le_min (mul_nonneg (asSecs_nonneg _) (zpow_nonneg hmultiplier _)) (asSecs_nonneg _)

/-- Every bound is positive where the parameters are. -/
theorem backoffBound_pos (policy : ReconnectPolicy) (attempt : UInt32)
    (hinitial : 0 < policy.initial) (hmultiplier : 0 < policy.multiplier)
    (hmax : 0 < policy.max) : 0 < backoffBound policy attempt :=
  lt_min (mul_pos (asSecs_pos _ hinitial) (zpow_pos hmultiplier _)) (asSecs_pos _ hmax)

theorem boundOf_le_max (c : GrpcClient) (n : Nat) : c.boundOf n ≤ c.reconnect.max.asSecs :=
  min_le_right _ _

/-- While the exponent grows, so does the bound. -/
theorem lawful_grown (c : GrpcClient) (n : Nat) (h0 : c.attempt = 0)
    (hmultiplier : 1 ≤ c.reconnect.multiplier) (h1 : 1 ≤ n) (hn : n ≤ 2 ^ 31) : Lawful c n := by
  have hinitial := asSecs_nonneg c.reconnect.initial
  refine ⟨?_, boundOf_le_max c n, fun h2 => ?_⟩
  · rw [boundOf_grown c n h0 h1 hn]
    exact min_le_min_right _ (le_mul_of_one_le_right hinitial (one_le_pow₀ hmultiplier))
  · rw [boundOf_grown c n h0 h1 hn, boundOf_grown c (n - 1) h0 (by omega) (by omega)]
    refine min_le_min_right _ (mul_le_mul_of_nonneg_left ?_ hinitial)
    exact pow_le_pow_right₀ hmultiplier (by omega)

/-- A bound that is at the maximum obeys the law. -/
theorem lawful_of_eq_max (c : GrpcClient) (n : Nat) (h : c.boundOf n = c.reconnect.max.asSecs) :
    Lawful c n := by
  refine ⟨?_, boundOf_le_max c n, fun _ => ?_⟩
  · rw [h]
    exact min_le_right _ _
  · rw [h]
    exact boundOf_le_max c (n - 1)

/-- With a factor of one the bound is always the same. -/
theorem boundOf_constant (c : GrpcClient) (n : Nat) (h : c.reconnect.multiplier = 1) :
    c.boundOf n = min c.reconnect.initial.asSecs c.reconnect.max.asSecs := by
  rw [boundOf, backoffBound, h, one_zpow, mul_one]

/-- Where the exponent is negative, a factor above one takes the bound below
    its least value unless the quotient is at the maximum. -/
theorem lawful_wrapped_iff (c : GrpcClient) (n : Nat) (h0 : c.attempt = 0)
    (hinitial : 0 < c.reconnect.initial) (hmultiplier : 1 < c.reconnect.multiplier)
    (hn : 2 ^ 31 < n) : Lawful c n ↔
      c.reconnect.max.asSecs * c.reconnect.multiplier ^ (2 ^ 32 + 1 - min n (2 ^ 32 - 1))
        ≤ c.reconnect.initial.asSecs := by
  have hbound := boundOf_wrapped c n h0 hn
  have hne : 2 ^ 32 + 1 - min n (2 ^ 32 - 1) ≠ 0 := by omega
  generalize 2 ^ 32 + 1 - min n (2 ^ 32 - 1) = k at hbound hne ⊢
  have hpos : 0 < c.reconnect.multiplier ^ k := pow_pos (lt_trans one_pos hmultiplier) k
  rw [← le_div_iff₀ hpos]
  constructor
  · intro h
    have hleast := h.least
    rw [hbound, le_min_iff] at hleast
    -- The quotient is below the initial delay, so the maximum is the least value.
    have hlt : c.reconnect.initial.asSecs / c.reconnect.multiplier ^ k
        < c.reconnect.initial.asSecs :=
      div_lt_self (asSecs_pos _ hinitial) (one_lt_pow₀ hmultiplier hne)
    rcases min_le_iff.mp hleast.1 with hinit | hmax
    · exact absurd hinit (not_le.mpr hlt)
    · exact hmax
  · intro h
    exact lawful_of_eq_max c n (hbound.trans (min_eq_right h))

/-- The bound of the `n`-th backoff in a row obeys its law exactly when the
    counter has not passed 2^31, or the negative exponent does not show. -/
theorem backoff_lawful_iff (c : GrpcClient) (n : Nat) (h0 : c.attempt = 0)
    (hinitial : 0 < c.reconnect.initial) (hmultiplier : 1 ≤ c.reconnect.multiplier) (h1 : 1 ≤ n) :
    Lawful c n ↔ n ≤ 2 ^ 31 ∨ c.reconnect.multiplier = 1 ∨
      c.reconnect.max.asSecs * c.reconnect.multiplier ^ (2 ^ 32 + 1 - min n (2 ^ 32 - 1))
        ≤ c.reconnect.initial.asSecs := by
  rcases Nat.lt_or_ge (2 ^ 31) n with hn | hn
  · rcases eq_or_lt_of_le hmultiplier with hone | hgt
    · have hconstant := fun m => boundOf_constant c m hone.symm
      refine iff_of_true ⟨?_, boundOf_le_max c n, fun _ => ?_⟩ (Or.inr (Or.inl hone.symm))
      · rw [hconstant]
      · rw [hconstant, hconstant]
    · rw [lawful_wrapped_iff c n h0 hinitial hgt hn, or_iff_right (Nat.not_le.mpr hn),
        or_iff_right hgt.ne']
  · exact iff_of_true (lawful_grown c n h0 hmultiplier h1 hn) (Or.inl hn)

/-- With the default policy the bound collapses at backoff 2^31 + 1: from the
    maximum of five seconds to a tenth of a second, halved 2^31 times. -/
theorem wrapped_unlawful : plainStart.client.attempt = 0 ∧
    0 < plainStart.client.reconnect.initial ∧ 1 ≤ plainStart.client.reconnect.multiplier ∧
      ¬ Lawful plainStart.client (2 ^ 31 + 1) := by
  have hinitial : 0 < plainStart.client.reconnect.initial := by decide
  have hmultiplier : (1 : ℚ) < plainStart.client.reconnect.multiplier := one_lt_two
  refine ⟨rfl, hinitial, hmultiplier.le, ?_⟩
  rw [lawful_wrapped_iff plainStart.client _ rfl hinitial hmultiplier (Nat.lt_succ_self _)]
  generalize 2 ^ 32 + 1 - min (2 ^ 31 + 1) (2 ^ 32 - 1) = k
  -- The initial delay is below the maximum already before it is divided.
  have hlt : plainStart.client.reconnect.initial.asSecs < plainStart.client.reconnect.max.asSecs :=
    asSecs_lt _ _ (by decide)
  have hpow : 1 ≤ plainStart.client.reconnect.multiplier ^ k := one_le_pow₀ hmultiplier.le
  exact not_le.mpr (hlt.trans_le (le_mul_of_one_le_right (asSecs_nonneg _) hpow))

/-- The third backoff of the default policy obeys it: its bound is twice that
    of the second, four times the initial delay. -/
theorem third_lawful : Lawful plainStart.client 3 ∧ plainStart.client.boundOf 2 = 1 / 5 ∧
    plainStart.client.boundOf 3 = 2 / 5 :=
  ⟨(backoff_lawful_iff plainStart.client 3 rfl (by decide) one_le_two (by decide)).mpr
    (Or.inl (by decide)), by decide +kernel, by decide +kernel⟩

end GrpcClient

end Grpc

end ShredStream
