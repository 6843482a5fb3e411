import Mathlib.Algebra.Order.Field.Basic
import Mathlib.Algebra.Order.Field.Rat
import Mathlib.Tactic.Positivity
import ShredStream.Lib.Xorshift
import ShredStream.Theory.Grpc.Step

/-!
# The Jitter

The generator of the delays steps by three xorshift maps on 64-bit words. Each
is injective, so the step is, and zero, which the step fixes, has no other
predecessor. The seed has its lowest bit set, so the generator starts away
from zero and never gets there, however many numbers are drawn.

What is drawn are the upper 53 bits as a fraction. It is below one in every
state, and so the seconds a delay is made from are below their bound whenever
there is room below it. Rounding to whole nanoseconds can take the delay up to
the bound, but not past it.

## Main definitions

* `drawn`: The generator after some numbers have been drawn.
* `NeverStuck`: What holds of a generator from its seed on.
* `closeStart`: A client whose first delay is its bound.

## Theorems

* `advance_injective`: Distinct states have distinct successors.
* `draw_range`: What is drawn lies between zero and one.
* `never_stuck`: The generator runs on from every seed.
* `closeStart_reaches`: A delay that is not below its bound.
-/

namespace ShredStream

open Rounding Xorshift

namespace Jitter

/-- The generator after `n` numbers have been drawn. -/
def drawn (j : Jitter) (n : Nat) : Jitter := (fun j => j.next.1)^[n] j

/-- From this seed on, the state is never zero and no two states share a
    successor; every number drawn lies between zero and one. What a delay of a
    client is made from is below its bound, and the delay itself is not above
    the bound when that is rounded like the delay. -/
structure NeverStuck (seed : UInt64) : Prop where
  nonzero : ∀ n, (drawn ⟨seed ||| 1⟩ n).state ≠ 0
  distinct : ∀ j j' : Jitter, j.state ≠ j'.state → j.next.1.state ≠ j'.next.1.state
  unit : ∀ n, 0 ≤ (drawn ⟨seed ||| 1⟩ n).next.2 ∧ (drawn ⟨seed ||| 1⟩ n).next.2 < 1
  below : ∀ c : Grpc.GrpcClient, 0 < backoffBound c.reconnect c.backoffDelay.1.attempt →
    c.delaySecs < backoffBound c.reconnect c.backoffDelay.1.attempt
  most : ∀ c : Grpc.GrpcClient, 0 < backoffBound c.reconnect c.backoffDelay.1.attempt →
    c.backoffDelay.2 = Duration.fromSecsF64 c.delaySecs ∧
      c.backoffDelay.2 ≤ Duration.fromSecsF64 (backoffBound c.reconnect c.backoffDelay.1.attempt)

/-! ### One step -/

/-- The step is three xorshifts, one after the other. -/
theorem toBitVec_advance (x : UInt64) : (advance x).toBitVec
    = mix (fun x => x <<< 17) (mix (fun x => x >>> 7) (mix (fun x => x <<< 13) x.toBitVec)) := rfl

/-- Distinct states have distinct successors. -/
theorem advance_injective : Function.Injective advance := by
  intro x y h
  have hbits := congrArg UInt64.toBitVec h
  rw [toBitVec_advance, toBitVec_advance] at hbits
  have hthird := mix_injective _ (vanishing_shiftLeft 17 (by decide)) hbits
  have hsecond := mix_injective _ (vanishing_ushiftRight 7 (by decide)) hthird
  have hfirst := mix_injective _ (vanishing_shiftLeft 13 (by decide)) hsecond
  exact UInt64.toBitVec_inj.mp hfirst

theorem advance_zero : advance 0 = 0 := rfl

/-- What is drawn lies between zero and one. -/
theorem draw_range (j : Jitter) : 0 ≤ j.next.2 ∧ j.next.2 < 1 := by
  have hlt : (Jitter.advance j.state >>> 11).toNat < 2 ^ 53 := by
    have := UInt64.toNat_lt (Jitter.advance j.state)
    rw [UInt64.toNat_shiftRight, Nat.shiftRight_eq_div_pow]
    change (Jitter.advance j.state).toNat / 2 ^ 11 < 2 ^ 53
    omega
  simp only [Jitter.next]
  refine ⟨by positivity, ?_⟩
  rw [div_lt_one (by positivity)]
  exact_mod_cast hlt

/-! ### Every number of steps -/

theorem state_drawn (j : Jitter) (n : Nat) : (drawn j n).state = advance^[n] j.state := by
  induction n with
  | zero => rfl
  | succ n ih =>
      rw [drawn, Function.iterate_succ_apply', Function.iterate_succ_apply', ← ih]
      rfl

/-- The seed has its lowest bit set. -/
theorem seed_ne_zero (seed : UInt64) : seed ||| 1 ≠ 0 := by
  intro h
  have hbits := congrArg UInt64.toBitVec h
  rw [UInt64.toBitVec_or] at hbits
  exact absurd (BitVec.or_eq_zero_iff.mp hbits).2 (by decide)

/-- More seconds do not make a shorter span. -/
theorem fromSecsF64_mono (secs secs' : ℚ) (h : secs ≤ secs') :
    Duration.fromSecsF64 secs ≤ Duration.fromSecsF64 secs' :=
  Int.toNat_le_toNat (roundTiesEven_mono _ _ (mul_le_mul_of_nonneg_right h (by positivity)))

/-- A delay is as near to what it is made from as whole nanoseconds allow. -/
theorem fromSecsF64_near (secs : ℚ) (h : 0 ≤ secs) :
    |secs * 10 ^ 9 - Duration.fromSecsF64 secs| ≤ 1 / 2 := by
  have hnonneg := roundTiesEven_nonneg (secs * 10 ^ 9) (mul_nonneg h (by positivity))
  have hcast : ((Duration.fromSecsF64 secs : Nat) : ℚ) = (roundTiesEven (secs * 10 ^ 9) : ℚ) := by
    rw [← Int.cast_natCast]
    exact congrArg Int.cast (Int.toNat_of_nonneg hnonneg)
  rw [hcast]
  exact abs_sub_roundTiesEven _

/-- What a delay is made from is below its bound when that is positive. -/
theorem delaySecs_lt (c : Grpc.GrpcClient)
    (h : 0 < backoffBound c.reconnect c.backoffDelay.1.attempt) :
    c.delaySecs < backoffBound c.reconnect c.backoffDelay.1.attempt :=
  mul_lt_of_lt_one_right h (draw_range c.jitter).2

/-- The generator runs on from every seed, and no delay is above its bound. -/
theorem never_stuck (seed : UInt64) : NeverStuck seed := by
  refine ⟨fun n => ?_, fun j j' hne h => hne (advance_injective h), fun n => draw_range _,
    delaySecs_lt, fun c h => ⟨rfl, fromSecsF64_mono _ _ (delaySecs_lt c h).le⟩⟩
  rw [state_drawn]
  exact iterate_ne_of_fixed advance advance_injective 0 advance_zero _ (seed_ne_zero seed) n

/-- The default client, made at a nanosecond whose seed draws the largest
    number first. -/
def closeStart : Grpc.GrpcClient :=
  { Grpc.plainStart.client with jitter := .new (some 1776847566836652189) }

/-- Its first delay is made from a hundred milliseconds less a small part of a
    nanosecond, and is a hundred milliseconds, which is the bound. -/
theorem closeStart_reaches :
    Grpc.Connected Grpc.openDeps ⟨closeStart, none⟩ ∧
    closeStart.backoffDelay.2 = Duration.fromMillis 100 ∧
    0 < backoffBound closeStart.reconnect closeStart.backoffDelay.1.attempt ∧
    ¬ closeStart.backoffDelay.2.asSecs
      < backoffBound closeStart.reconnect closeStart.backoffDelay.1.attempt :=
  ⟨⟨Grpc.plainConfig, some 1776847566836652189, 0, 0, rfl, rfl⟩, by decide +kernel,
    by decide +kernel, by decide +kernel⟩

end Jitter

end ShredStream
