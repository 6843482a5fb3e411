import Mathlib.Algebra.Field.Rat
import Mathlib.Data.Rat.Floor
import ShredStream.Lib.Rounding

/-!
# Time

Spans of time and readings of the monotonic clock, both in nanoseconds.

A span can be read as a number of seconds and made from one. The source does
this in `f64`; the model reads those numbers as rationals, which have no
infinity and no NaN, and rounds to nanoseconds where the source does.

## Main definitions

* `Duration`, `Instant`: Nanoseconds.
* `Duration.asSecs`, `Duration.fromSecsF64`: To seconds and back.
-/

namespace ShredStream

open Rounding

/-- Nanoseconds. -/
abbrev Duration := Nat

/-- A monotonic clock reading, in nanoseconds. -/
abbrev Instant := Nat

def Duration.fromSecs (s : Nat) : Duration := s * 10 ^ 9
def Duration.fromMillis (ms : Nat) : Duration := ms * 10 ^ 6

/-- `as_secs_f64`, exactly. -/
def Duration.asSecs (d : Duration) : ℚ := (d : ℚ) / 10 ^ 9

/-- `Duration::from_secs_f64`: the nearest number of nanoseconds, ties to even.
    On a negative number the source panics, where this is zero. -/
def Duration.fromSecsF64 (secs : ℚ) : Duration := (roundTiesEven (secs * 10 ^ 9)).toNat

/-- `Instant::elapsed` at the reading `now`, which saturates at zero. -/
def Instant.elapsed (t now : Instant) : Duration := now - t

end ShredStream
