import Mathlib.Logic.Function.Iterate

/-!
# Xorshift

Words combined with shifted copies of themselves.

A shift respects exclusive or, and done often enough it leaves nothing of a
word. Those two properties are all that is used here. Two words with the same
combination differ by a word that the shift leaves as it is, and a shift that
leaves a word as it is does so however often it is done; so the words are
equal (`mix_injective`). This holds for a shift in either direction, by any
number of places but zero, on words of any width.

A generator that steps by injective maps which fix zero never reaches zero
from another state, since zero has no other predecessor
(`iterate_ne_of_fixed`).

## Main definitions

* `mix`: A word combined with its image.
* `Vanishing`: What a shift has in common with every other.

## Theorems

* `mix_injective`: Combining with the image under such a map is injective.
* `vanishing_shiftLeft`, `vanishing_ushiftRight`: The shifts.
* `iterate_ne_of_fixed`: A fixed point is not reached from elsewhere.
-/

namespace ShredStream

namespace Xorshift

variable {w : Nat}

/-- The word combined with its image. -/
def mix (f : BitVec w → BitVec w) (x : BitVec w) : BitVec w := x ^^^ f x

/-- The map respects exclusive or, and repeating it leaves nothing of any
    word. -/
structure Vanishing (f : BitVec w → BitVec w) : Prop where
  xor : ∀ x y, f (x ^^^ y) = f x ^^^ f y
  vanishes : ∃ n, ∀ x, f^[n] x = 0#w

/-- Only zero is left as it is. -/
theorem Vanishing.eq_zero (f : BitVec w → BitVec w) (hf : Vanishing f) (x : BitVec w)
    (h : f x = x) : x = 0#w := by
  rcases hf.vanishes with ⟨n, hn⟩
  rw [← Function.iterate_fixed h n]
  exact hn x

/-- Words with the same combination are equal. -/
theorem mix_injective (f : BitVec w → BitVec w) (hf : Vanishing f) :
    Function.Injective (mix f) := by
  intro x y h
  -- What the two words differ by is what their images differ by.
  have hfixed : f (x ^^^ y) = x ^^^ y := by
    rw [hf.xor, ← BitVec.xor_eq_zero_iff]
    calc f x ^^^ f y ^^^ (x ^^^ y)
        = (x ^^^ f x) ^^^ (y ^^^ f y) := by ac_rfl
      _ = 0#w := BitVec.xor_eq_zero_iff.mpr h
  exact BitVec.xor_eq_zero_iff.mp (hf.eq_zero f (x ^^^ y) hfixed)

/-! ### Shifts -/

theorem iterate_shiftLeft (k n : Nat) (x : BitVec w) :
    (fun x : BitVec w => x <<< k)^[n] x = x <<< (k * n) := by
  induction n with
  | zero => rw [Function.iterate_zero_apply, Nat.mul_zero, BitVec.shiftLeft_zero]
  | succ n ih => rw [Function.iterate_succ_apply', ih, Nat.mul_succ, BitVec.shiftLeft_add]

theorem iterate_ushiftRight (k n : Nat) (x : BitVec w) :
    (fun x : BitVec w => x >>> k)^[n] x = x >>> (k * n) := by
  induction n with
  | zero => rw [Function.iterate_zero_apply, Nat.mul_zero, BitVec.ushiftRight_zero]
  | succ n ih => rw [Function.iterate_succ_apply', ih, Nat.mul_succ, BitVec.shiftRight_add]

theorem vanishing_shiftLeft (k : Nat) (hk : 1 ≤ k) :
    Vanishing (fun x : BitVec w => x <<< k) := by
  refine ⟨fun x y => BitVec.shiftLeft_xor_distrib x y k, w, fun x => ?_⟩
  rw [iterate_shiftLeft, BitVec.shiftLeft_eq_zero (Nat.le_mul_of_pos_left w hk)]

theorem vanishing_ushiftRight (k : Nat) (hk : 1 ≤ k) :
    Vanishing (fun x : BitVec w => x >>> k) := by
  refine ⟨fun x y => BitVec.ushiftRight_xor_distrib x y k, w, fun x => ?_⟩
  rw [iterate_ushiftRight, BitVec.ushiftRight_eq_zero (Nat.le_mul_of_pos_left w hk)]

/-! ### Repeated steps -/

/-- An injective step reaches its fixed point from nowhere else. -/
theorem iterate_ne_of_fixed {α : Type} (f : α → α) (hinj : Function.Injective f) (z : α)
    (hz : f z = z) (x : α) (hx : x ≠ z) (n : Nat) : f^[n] x ≠ z := by
  intro h
  rw [← Function.iterate_fixed hz n] at h
  exact hx (hinj.iterate n h)

end Xorshift

end ShredStream
