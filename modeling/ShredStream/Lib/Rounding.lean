import Mathlib.Algebra.Order.Floor.Ring
import Mathlib.Tactic.Linarith

/-!
# Rounding to the Nearest

The integer nearest to a number, and the even one of two that are equally
near. This is how binary floating point rounds, and conversions that follow
it. It keeps the order of numbers and leaves integers alone, so a number that
lies below an integer is never rounded above it, though it may be rounded to
it.

## Main definitions

* `roundTiesEven`: The nearest integer.

## Theorems

* `roundTiesEven_intCast`: Integers are left alone.
* `roundTiesEven_mono`: The order is kept.
* `abs_sub_roundTiesEven`: The error is at most a half.
-/

namespace ShredStream

namespace Rounding

variable {α : Type} [Field α] [LinearOrder α] [FloorRing α]

/-- The nearest integer, and the even one of two. -/
def roundTiesEven (x : α) : Int :=
  if 2 * Int.fract x < 1 ∨ 2 * Int.fract x = 1 ∧ ⌊x⌋ % 2 = 0 then ⌊x⌋ else ⌊x⌋ + 1

/-- It is one of the two neighbours. -/
theorem roundTiesEven_between (x : α) : ⌊x⌋ ≤ roundTiesEven x ∧ roundTiesEven x ≤ ⌊x⌋ + 1 := by
  unfold roundTiesEven
  split <;> omega

variable [IsStrictOrderedRing α]

theorem roundTiesEven_intCast (n : Int) : roundTiesEven (n : α) = n := by
  have hfract : 2 * Int.fract (n : α) < 1 := by
    rw [Int.fract_intCast, mul_zero]
    exact zero_lt_one
  rw [roundTiesEven, if_pos (Or.inl hfract), Int.floor_intCast]

theorem roundTiesEven_mono (x y : α) (h : x ≤ y) : roundTiesEven x ≤ roundTiesEven y := by
  have hx := (roundTiesEven_between x).2
  have hy := (roundTiesEven_between y).1
  rcases eq_or_lt_of_le (Int.floor_mono h) with heq | hlt
  · -- Between the same neighbours the greater fraction is not rounded down alone.
    have hfract : Int.fract x ≤ Int.fract y := by
      rw [Int.fract, Int.fract, heq]
      exact sub_le_sub_right h _
    unfold roundTiesEven
    rw [heq]
    by_cases hdown : 2 * Int.fract y < 1 ∨ 2 * Int.fract y = 1 ∧ ⌊y⌋ % 2 = 0
    · have hdown' : 2 * Int.fract x < 1 ∨ 2 * Int.fract x = 1 ∧ ⌊y⌋ % 2 = 0 := by
        rcases lt_or_eq_of_le hfract with hless | hsame
        · refine Or.inl ?_
          rcases hdown with hlow | ⟨htie, _⟩ <;> linarith
        · rw [hsame]
          exact hdown
      rw [if_pos hdown, if_pos hdown']
    · rw [if_neg hdown]
      split <;> omega
  · omega

theorem roundTiesEven_nonneg (x : α) (h : 0 ≤ x) : 0 ≤ roundTiesEven x := by
  have hzero := roundTiesEven_intCast (α := α) 0
  rw [Int.cast_zero] at hzero
  rw [← hzero]
  exact roundTiesEven_mono 0 x h

/-- The error is at most a half. -/
theorem abs_sub_roundTiesEven (x : α) : |x - roundTiesEven x| ≤ 1 / 2 := by
  have hsplit := Int.floor_add_fract x
  have hnonneg := Int.fract_nonneg x
  have hlt := Int.fract_lt_one x
  rw [abs_le]
  unfold roundTiesEven
  by_cases hdown : 2 * Int.fract x < 1 ∨ 2 * Int.fract x = 1 ∧ ⌊x⌋ % 2 = 0
  · rw [if_pos hdown]
    rcases hdown with hlow | ⟨htie, _⟩ <;> constructor <;> linarith
  · rw [if_neg hdown, Int.cast_add, Int.cast_one]
    have hhigh : 1 ≤ 2 * Int.fract x := not_lt.mp (fun hlow => hdown (Or.inl hlow))
    constructor <;> linarith

end Rounding

end ShredStream
