import Mathlib.Data.List.Basic

/-!
# Computations that Keep a Record

Fallible computations that write something down on the way, whether they
fail later or not. What was recorded before a failure stays recorded, which is
why the record stands beside the result and not in it.

`mem_log_bind` is the rule for reading a record: an entry is there when the
first computation made it, or when the first succeeded and what follows made
it. With it a record is told by following the computation once.

## Main definitions

* `Recorded`: A record and a result.
* `silent`, `record`: The computations that only fail or only record.

## Theorems

* `result_bind`: The results compose as if nothing were recorded.
* `mem_log_bind`: What a sequence of computations records.
* `mem_log_lift_bind`, `mem_log_record_bind`: Where the first of them is plain.
-/

namespace ShredStream

/-- What was recorded, oldest first, and the result. -/
structure Recorded (ρ ε α : Type) where
  log : List ρ
  result : Except ε α

namespace Recorded

variable {ρ ε α β : Type}

/-- A computation that records nothing. -/
def silent (r : Except ε α) : Recorded ρ ε α := ⟨[], r⟩

/-- Record one entry. -/
def record (r : ρ) : Recorded ρ ε Unit := ⟨[r], .ok ()⟩

instance : Monad (Recorded ρ ε) where
  pure a := silent (.ok a)
  bind x f := match x.result with
    | .error e => ⟨x.log, .error e⟩
    | .ok a => ⟨x.log ++ (f a).log, (f a).result⟩

instance : MonadLift (Except ε) (Recorded ρ ε) := ⟨silent⟩

/-- The results compose as they would without the records. -/
theorem result_bind (x : Recorded ρ ε α) (f : α → Recorded ρ ε β) :
    (x >>= f).result = x.result >>= fun a => (f a).result := by
  simp only [bind]
  cases x.result <;> rfl

@[simp] theorem result_lift (r : Except ε α) : (liftM r : Recorded ρ ε α).result = r := rfl

@[simp] theorem result_record (r : ρ) : (record r : Recorded ρ ε Unit).result = .ok () := rfl

/-- An entry is made by the first computation, or by what follows it when it
    succeeds. -/
theorem mem_log_bind (x : Recorded ρ ε α) (f : α → Recorded ρ ε β) (r : ρ) :
    r ∈ (x >>= f).log ↔ r ∈ x.log ∨ ∃ a, x.result = .ok a ∧ r ∈ (f a).log := by
  simp only [bind]
  cases x.result with
  | error e => simp only [reduceCtorEq, false_and, exists_false, or_false]
  | ok a => simp only [List.mem_append, Except.ok.injEq, exists_eq_left']

/-- A computation that records nothing only has to succeed. -/
theorem mem_log_lift_bind (x : Except ε α) (f : α → Recorded ρ ε β) (r : ρ) :
    r ∈ (liftM x >>= f).log ↔ ∃ a, x = .ok a ∧ r ∈ (f a).log := by
  rw [mem_log_bind]
  exact or_iff_right List.not_mem_nil

/-- Recording does not fail. -/
theorem mem_log_record_bind (r' : ρ) (f : Unit → Recorded ρ ε β) (r : ρ) :
    r ∈ (record r' >>= f).log ↔ r = r' ∨ r ∈ (f ()).log := by
  rw [mem_log_bind]
  refine or_congr List.mem_singleton ⟨fun ⟨_, _, h⟩ => h, fun h => ⟨(), rfl, h⟩⟩

theorem not_mem_log_pure (a : α) (r : ρ) : r ∉ (pure a : Recorded ρ ε α).log := List.not_mem_nil

theorem not_mem_log_lift (x : Except ε α) (r : ρ) : r ∉ (liftM x : Recorded ρ ε α).log :=
  List.not_mem_nil

end Recorded

end ShredStream
