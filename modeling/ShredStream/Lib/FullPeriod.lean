import Mathlib.Data.Nat.Count
import Mathlib.Data.Nat.Prime.Basic
import Mathlib.Dynamics.PeriodicPts.Defs
import Mathlib.Order.Interval.Finset.Nat
import ShredStream.Lib.Xorshift

/-!
# Full Period

How many steps a generator takes until it repeats itself, for steps that
respect exclusive or.

Counting them is out of the question, but such a step can be taken many times
at once. A polynomial over the field of two elements stands for the exclusive
or of some of the words that follow a start (`combine`), and multiplying it by
the unknown is one step. The words that follow a start depend on each other,
so there is a polynomial by which the others can be reduced, and the
polynomial of a large number of steps is a power, found by squaring
(`combine_powMod`). Polynomials are coded by the bits of a number.

So it can be checked that a start comes back after `N` steps, and not after
`N` divided by one of its prime factors; then `N` is its period
(`minimalPeriod_of_primes`). Where there are no more than `N` states that it
could visit, it visits all of them, each once (`exists_iterate_eq`,
`count_iterate`).

## Main definitions

* `XorLinear`: A step that respects exclusive or.
* `combine`: The word a polynomial makes of a start.
* `shiftMod`, `mulMod`, `powMod`: Polynomials modulo another.

## Theorems

* `combine_shiftMod`, `combine_mulMod`, `combine_powMod`: What the operations
  on polynomials are of the words.
* `minimalPeriod_of_primes`: A period from its prime factors.
* `image_iterate`: A cycle that is as long as there are states.
-/

namespace ShredStream

namespace FullPeriod

open Function Xorshift

variable {w : Nat}

/-- The step respects exclusive or. -/
def XorLinear (f : BitVec w → BitVec w) : Prop := ∀ x y, f (x ^^^ y) = f x ^^^ f y

/-- The exclusive or of the words that follow the start after as many steps as
    there are bits below one of the lowest `n` that is set. -/
def combine (f : BitVec w → BitVec w) (start : BitVec w) : Nat → Nat → BitVec w
  | 0, _ => 0#w
  | n + 1, p => (if p.testBit 0 then start else 0#w) ^^^ f (combine f start n (p / 2))

section Polynomials

variable (modulus d : Nat)

/-- A polynomial times the unknown. -/
def shiftMod (p : Nat) : Nat := if (2 * p).testBit d then (2 * p) ^^^ modulus else 2 * p

/-- The product of the lowest `n` bits of a polynomial with another. -/
def mulMod : Nat → Nat → Nat → Nat
  | 0, _, _ => 0
  | n + 1, p, q => (if p.testBit 0 then q else 0) ^^^ shiftMod modulus d (mulMod n (p / 2) q)

/-- The unknown to the power of a number with `n` bits. -/
def powMod : Nat → Nat → Nat
  | 0, _ => 1
  | n + 1, e =>
    let root := powMod n (e / 2)
    let square := mulMod modulus d d root root
    if e.testBit 0 then shiftMod modulus d square else square

end Polynomials

/-- A polynomial times the unknown is a step. -/
theorem combine_double (f : BitVec w → BitVec w) (start : BitVec w) (n p : Nat) :
    combine f start (n + 1) (2 * p) = f (combine f start n p) := by
  have hbit : (2 * p).testBit 0 = false := by simp
  rw [combine, hbit, if_neg Bool.false_ne_true, Nat.mul_div_cancel_left p (by decide),
    BitVec.zero_xor]

/-! ### Steps that respect exclusive or -/

section Linear

variable (f : BitVec w → BitVec w) (hf : XorLinear f)

include hf

theorem XorLinear.zero : f 0#w = 0#w := by
  have h := hf 0#w 0#w
  rwa [BitVec.xor_self, BitVec.xor_self] at h

theorem XorLinear.mix : XorLinear (mix f) := by
  intro x y
  unfold Xorshift.mix
  rw [hf]
  ac_rfl

theorem XorLinear.comp (g : BitVec w → BitVec w) (hg : XorLinear g) : XorLinear (f ∘ g) := by
  intro x y
  rw [comp_apply, hg, hf]
  rfl

theorem XorLinear.iterate (n : Nat) : XorLinear f^[n] := by
  induction n with
  | zero =>
      intro x y
      rfl
  | succ n ih =>
      rw [iterate_succ]
      exact ih.comp _ _ hf

/-! ### What polynomials make of a start -/

variable (start : BitVec w)

theorem combine_zero (n : Nat) : combine f start n 0 = 0#w := by
  induction n with
  | zero => rfl
  | succ n ih =>
      rw [combine, Nat.zero_testBit, if_neg Bool.false_ne_true, Nat.zero_div, ih, hf.zero,
        BitVec.xor_self]

theorem combine_one (n : Nat) (h : 0 < n) : combine f start n 1 = start := by
  cases n with
  | zero => exact absurd h (Nat.lt_irrefl 0)
  | succ n =>
      have hodd : Nat.testBit 1 0 = true := by decide
      rw [combine, hodd, if_pos rfl, Nat.div_eq_of_lt (by decide : 1 < 2), combine_zero f hf,
        hf.zero, BitVec.xor_zero]

/-- The sum of two polynomials. -/
theorem combine_xor (n : Nat) : ∀ p q,
    combine f start n (p ^^^ q) = combine f start n p ^^^ combine f start n q := by
  induction n with
  | zero =>
      intro p q
      exact (BitVec.xor_self).symm
  | succ n ih =>
      intro p q
      have hbit : (if (p ^^^ q).testBit 0 then start else 0#w)
          = (if p.testBit 0 then start else 0#w) ^^^ (if q.testBit 0 then start else 0#w) := by
        rw [Nat.testBit_xor]
        cases p.testBit 0 <;> cases q.testBit 0 <;> simp
      rw [combine, combine, combine, Nat.xor_div_two, ih, hf, hbit]
      ac_rfl

/-- The highest bit is the last of the words. -/
theorem combine_last (n : Nat) : ∀ p, combine f start (n + 1) p
    = combine f start n p ^^^ (if p.testBit n then f^[n] start else 0#w) := by
  induction n with
  | zero =>
      intro p
      rw [combine, combine, combine, hf.zero, BitVec.xor_zero, BitVec.zero_xor]
      rfl
  | succ n ih =>
      intro p
      have hword : f (if (p / 2).testBit n then f^[n] start else 0#w)
          = if p.testBit (n + 1) then f^[n + 1] start else 0#w := by
        rw [Nat.testBit_div_two, iterate_succ_apply', apply_ite f, hf.zero]
      rw [combine, ih, hf, hword, combine]
      ac_rfl

/-! ### Reduced polynomials -/

variable (modulus d : Nat) (hmodulus : combine f start d modulus = f^[d] start)

include hmodulus

/-- A reduced polynomial times the unknown is a step. -/
theorem combine_shiftMod (p : Nat) :
    combine f start d (shiftMod modulus d p) = f (combine f start d p) := by
  rw [← combine_double f, combine_last f hf]
  unfold shiftMod
  by_cases h : (2 * p).testBit d = true
  · rw [if_pos h, if_pos h, combine_xor f hf, hmodulus]
  · rw [if_neg h, if_neg h, BitVec.xor_zero]

/-- A product is the steps of one factor from where the other leads. -/
theorem combine_mulMod (q k : Nat) (hq : combine f start d q = f^[k] start) (n : Nat) : ∀ p,
    combine f start d (mulMod modulus d n p q) = f^[k] (combine f start n p) := by
  have hlinear := hf.iterate f k
  induction n with
  | zero =>
      intro p
      rw [mulMod, combine_zero f hf, combine, hlinear.zero]
  | succ n ih =>
      intro p
      have hbit : combine f start d (if p.testBit 0 then q else 0)
          = f^[k] (if p.testBit 0 then start else 0#w) := by
        rw [apply_ite (combine f start d), apply_ite f^[k], hq, combine_zero f hf, hlinear.zero]
      rw [mulMod, combine_xor f hf, combine_shiftMod f hf start modulus d hmodulus, ih, hbit,
        combine, hlinear, (Commute.self_iterate f k).eq]

/-- A power is that many steps. -/
theorem combine_powMod (hd : 0 < d) (n : Nat) : ∀ e, e < 2 ^ n →
    combine f start d (powMod modulus d n e) = f^[e] start := by
  induction n with
  | zero =>
      intro e he
      rw [Nat.lt_one_iff.mp he, powMod, combine_one f hf start d hd]
      rfl
  | succ n ih =>
      intro e he
      have hroot := ih (e / 2) (by omega)
      have hsquare := combine_mulMod f hf start modulus d hmodulus _ _ hroot d
        (powMod modulus d n (e / 2))
      rw [hroot, ← iterate_add_apply] at hsquare
      rw [powMod]
      by_cases h : e.testBit 0 = true
      · have hodd : e = e / 2 + e / 2 + 1 := by
          rw [Nat.testBit_zero, decide_eq_true_eq] at h
          omega
        simp only [h, if_true]
        rw [combine_shiftMod f hf start modulus d hmodulus, hsquare, ← iterate_succ_apply' f,
          Nat.succ_eq_add_one, ← hodd]
      · have heven : e = e / 2 + e / 2 := by
          rw [Nat.testBit_zero, decide_eq_true_eq] at h
          omega
        simp only [h, Bool.false_eq_true, if_false]
        rw [hsquare, ← heven]

end Linear

/-! ### Periods -/

section Periods

variable {α : Type} (f : α → α) (start : α) (N : Nat)

/-- What comes back after `N` steps, and after none of the largest divisors of
    `N`, comes back after `N` steps and no sooner. -/
theorem minimalPeriod_of_primes (hback : f^[N] start = start)
    (hprimes : ∀ p, p.Prime → p ∣ N → f^[N / p] start ≠ start) :
    minimalPeriod f start = N := by
  have hdvd : minimalPeriod f start ∣ N := IsPeriodicPt.minimalPeriod_dvd hback
  rcases hdvd with ⟨k, hk⟩
  by_cases hone : k = 1
  · rw [hk, hone, Nat.mul_one]
  · -- A shorter period divides one of the divisors.
    rcases Nat.exists_prime_and_dvd hone with ⟨p, hp, j, rfl⟩
    have hdiv : N / p = minimalPeriod f start * j := by
      rw [hk, Nat.mul_left_comm, Nat.mul_div_cancel_left _ hp.pos]
    refine absurd ?_ (hprimes p hp ⟨minimalPeriod f start * j, by rw [hk]; ac_rfl⟩)
    rw [hdiv]
    exact (isPeriodicPt_minimalPeriod f start).mul_const j

variable (code : α → Nat) (hcode : Injective code)
  (hrange : ∀ n, 1 ≤ code (f^[n] start) ∧ code (f^[n] start) ≤ N)
  (hperiod : minimalPeriod f start = N)

include hcode hperiod in
theorem code_injOn : Set.InjOn (fun n => code (f^[n] start)) (Finset.range N) := by
  intro m hm n hn h
  rw [Finset.coe_range] at hm hn
  rw [← hperiod] at hm hn
  exact iterate_injOn_Iio_minimalPeriod hm hn (hcode h)

include hcode hrange hperiod

/-- A cycle that is as long as there are states visits each of them. -/
theorem image_iterate :
    (Finset.range N).image (fun n => code (f^[n] start)) = Finset.Icc 1 N := by
  refine Finset.eq_of_subset_of_card_le (fun c hc => ?_) ?_
  · rcases Finset.mem_image.mp hc with ⟨n, _, rfl⟩
    exact Finset.mem_Icc.mpr (hrange n)
  · rw [Finset.card_image_of_injOn (code_injOn f start N code hcode hperiod), Finset.card_range,
      Nat.card_Icc, Nat.add_sub_cancel]

theorem exists_iterate_eq (x : α) (hx : 1 ≤ code x ∧ code x ≤ N) :
    ∃ n < N, f^[n] start = x := by
  have hmem : code x ∈ Finset.Icc 1 N := Finset.mem_Icc.mpr hx
  rw [← image_iterate f start N code hcode hrange hperiod] at hmem
  rcases Finset.mem_image.mp hmem with ⟨n, hn, heq⟩
  exact ⟨n, Finset.mem_range.mp hn, hcode heq⟩

/-- Every state that can be visited is on the same cycle. -/
theorem minimalPeriod_eq (x : α) (hx : 1 ≤ code x ∧ code x ≤ N) : minimalPeriod f x = N := by
  rcases exists_iterate_eq f start N code hcode hrange hperiod x hx with ⟨n, hn, rfl⟩
  rw [minimalPeriod_apply_iterate _ n, hperiod]
  refine minimalPeriod_pos_iff_mem_periodicPts.mp ?_
  omega

/-- How often the states of a kind are visited on the cycle: once each. -/
theorem count_iterate (p : Nat → Prop) [DecidablePred p] :
    Nat.count (fun n => p (code (f^[n] start))) N = ((Finset.Icc 1 N).filter p).card := by
  rw [Nat.count_eq_card_filter_range, ← image_iterate f start N code hcode hrange hperiod,
    Finset.filter_image, Finset.card_image_of_injOn]
  exact (code_injOn f start N code hcode hperiod).mono (Finset.filter_subset _ _)

end Periods

end FullPeriod

end ShredStream
