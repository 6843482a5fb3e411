import Mathlib.Data.List.Basic

/-!
# A Bounded FIFO that Evicts

A queue of bounded length whose push never fails: when the queue is full it
makes room by removing the oldest element and hands that element back. The
operations are atomic, as those of a linearizable queue are to its users.

`Ledger` is the account of everything that ever went through such a queue:
what was pushed is what is gone, in order, and then what the queue holds; what
is gone was either taken or evicted, each in order, and nothing else happened
to it. Both operations keep the account.

## Main definitions

* `forcePush`: Push, evicting the oldest element of a full queue.
* `pop`: Take the oldest element.
* `Ledger`: What was pushed, taken and evicted, and what is left.
* `Drained`: The same, when every push comes before every pop.

## Theorems

* `ledger_forcePush`: A push keeps the account.
* `ledger_pop`: A pop keeps the account.
* `ledger_lossless`: Without evictions nothing is missing.
* `drained_forcePush`, `drained_pop`: So it is for the other account.
-/

namespace ShredStream

namespace BoundedFifo

variable {α : Type}

/-- Push, evicting the oldest element when the queue is full. -/
def forcePush (capacity : Nat) (queue : List α) (x : α) : List α × Option α :=
  if queue.length < capacity then (queue ++ [x], none)
  else match queue with
    | [] => ([x], none)
    | y :: rest => (rest ++ [x], some y)

/-- Take the oldest element. -/
def pop : List α → List α × Option α
  | [] => ([], none)
  | y :: rest => (rest, some y)

/-- Only an empty queue has nothing to take. -/
theorem pop_none (queue rest : List α) (h : pop queue = (rest, none)) : queue = [] := by
  cases queue with
  | nil => rfl
  | cons y rest => cases h

/-- The account of a queue: what was pushed, what was taken, what was evicted,
    and what is left. -/
def Ledger (pushed taken evicted queue : List α) : Prop :=
  ∃ gone, pushed = gone ++ queue ∧ taken.Sublist gone ∧ evicted.Sublist gone ∧
    (taken ++ evicted).Perm gone

theorem ledger_nil : Ledger ([] : List α) [] [] [] :=
  ⟨[], rfl, List.Sublist.refl [], List.Sublist.refl [], List.Perm.refl []⟩

/-- The bound holds after every push. -/
theorem length_forcePush (capacity : Nat) (queue : List α) (x : α) (hpos : 1 ≤ capacity)
    (h : queue.length ≤ capacity) : (forcePush capacity queue x).1.length ≤ capacity := by
  unfold forcePush
  by_cases hfull : queue.length < capacity
  · rw [if_pos hfull, List.length_append, List.length_singleton]
    exact hfull
  · rw [if_neg hfull]
    cases queue with
    | nil => exact hpos
    | cons y rest =>
        rw [List.length_append, List.length_singleton]
        exact h

theorem length_pop (queue : List α) : (pop queue).1.length ≤ queue.length := by
  cases queue with
  | nil => exact Nat.le_refl 0
  | cons y rest => exact Nat.le_succ _

/-- A push keeps the account: the pushed element is in the queue, and an
    evicted one is gone. -/
theorem ledger_forcePush (capacity : Nat) (pushed taken evicted queue : List α) (x : α)
    (h : Ledger pushed taken evicted queue) :
    Ledger (pushed ++ [x]) taken (evicted ++ (forcePush capacity queue x).2.toList)
      (forcePush capacity queue x).1 := by
  rcases h with ⟨gone, rfl, htaken, hevicted, hperm⟩
  -- Without an eviction only the queue grows.
  have hroom : Ledger (gone ++ queue ++ [x]) taken (evicted ++ []) (queue ++ [x]) := by
    rw [List.append_nil]
    exact ⟨gone, List.append_assoc _ _ _, htaken, hevicted, hperm⟩
  unfold forcePush
  by_cases hfull : queue.length < capacity
  · rw [if_pos hfull]
    exact hroom
  · rw [if_neg hfull]
    cases queue with
    | nil => exact hroom
    | cons y rest =>
        -- The oldest is gone, behind everything that went before it.
        refine ⟨gone ++ [y], ?_, htaken.trans (List.sublist_append_left gone [y]),
          hevicted.append_right [y], ?_⟩
        · simp only [List.append_assoc, List.cons_append, List.nil_append]
        · rw [Option.toList_some, ← List.append_assoc]
          exact hperm.append_right [y]

/-- A pop keeps the account: the popped element is taken, last of all. -/
theorem ledger_pop (pushed taken evicted queue : List α)
    (h : Ledger pushed taken evicted queue) :
    Ledger pushed (taken ++ (pop queue).2.toList) evicted (pop queue).1 := by
  rcases h with ⟨gone, rfl, htaken, hevicted, hperm⟩
  cases queue with
  | nil =>
      simp only [pop, Option.toList_none, List.append_nil]
      exact ⟨gone, (List.append_nil gone).symm, htaken, hevicted, hperm⟩
  | cons y rest =>
      refine ⟨gone ++ [y], ?_, htaken.append_right [y],
        hevicted.trans (List.sublist_append_left gone [y]), ?_⟩
      · simp only [pop, List.append_assoc, List.cons_append, List.nil_append]
      · -- The popped element is taken after everything evicted so far.
        have hswap : (taken ++ [y] ++ evicted).Perm (taken ++ evicted ++ [y]) := by
          rw [List.append_assoc, List.append_assoc]
          exact List.perm_append_comm.append_left taken
        exact hswap.trans (hperm.append_right [y])

/-- What the account says about numbers. -/
theorem ledger_length (pushed taken evicted queue : List α)
    (h : Ledger pushed taken evicted queue) :
    pushed.length = taken.length + queue.length + evicted.length := by
  rcases h with ⟨gone, rfl, _, _, hperm⟩
  rw [List.length_append, ← hperm.length_eq, List.length_append]
  omega

/-- What the account says about order. -/
theorem ledger_sublist (pushed taken evicted queue : List α)
    (h : Ledger pushed taken evicted queue) : taken.Sublist pushed := by
  rcases h with ⟨gone, rfl, htaken, _⟩
  exact htaken.trans (List.sublist_append_left gone queue)

/-- Where nothing was evicted, everything pushed was taken or is left. -/
theorem ledger_lossless (pushed taken queue : List α) (h : Ledger pushed taken [] queue) :
    pushed = taken ++ queue := by
  rcases h with ⟨gone, rfl, htaken, _, hperm⟩
  rw [List.append_nil] at hperm
  rw [htaken.eq_of_length hperm.length_eq]

/-- What is about to be pushed may be counted as left. -/
theorem ledger_append (pushed taken evicted queue coming : List α)
    (h : Ledger pushed taken evicted queue) :
    Ledger (pushed ++ coming) taken evicted (queue ++ coming) := by
  rcases h with ⟨gone, rfl, hrest⟩
  exact ⟨gone, List.append_assoc _ _ _, hrest⟩

/-- The account of what the elements carry. -/
theorem ledger_map {β : Type} (f : α → β) (pushed taken evicted queue : List α)
    (h : Ledger pushed taken evicted queue) :
    Ledger (pushed.map f) (taken.map f) (evicted.map f) (queue.map f) := by
  rcases h with ⟨gone, rfl, htaken, hevicted, hperm⟩
  refine ⟨gone.map f, List.map_append, htaken.map f, hevicted.map f, ?_⟩
  rw [← List.map_append]
  exact hperm.map f

/-- The account of a queue that is pushed to first and taken from afterwards,
    from what it held in the beginning: evictions took the oldest, and what was
    taken came right behind them. -/
def Drained (start pushed taken evicted queue : List α) : Prop :=
  start ++ pushed = evicted ++ taken ++ queue

theorem drained_start (queue : List α) : Drained queue [] [] [] queue := by
  rw [Drained, List.append_nil, List.nil_append, List.nil_append]

/-- A push before anything is taken keeps that account. -/
theorem drained_forcePush (capacity : Nat) (start pushed evicted queue : List α) (x : α)
    (h : Drained start pushed [] evicted queue) :
    Drained start (pushed ++ [x]) [] (evicted ++ (forcePush capacity queue x).2.toList)
      (forcePush capacity queue x).1 := by
  rw [Drained, List.append_nil] at h
  unfold Drained forcePush
  by_cases hfull : queue.length < capacity
  · -- With room nothing leaves the queue.
    rw [if_pos hfull, ← List.append_assoc, h]
    simp only [Option.toList_none, List.append_nil, List.append_assoc]
  · rw [if_neg hfull, ← List.append_assoc, h]
    cases queue with
    | nil => simp only [Option.toList_none, List.append_nil]
    -- The oldest goes to the evicted ones, right behind them.
    | cons y rest =>
        simp only [Option.toList_some, List.append_assoc, List.nil_append, List.cons_append]

/-- A pop always does. -/
theorem drained_pop (start pushed taken evicted queue : List α)
    (h : Drained start pushed taken evicted queue) :
    Drained start pushed (taken ++ (pop queue).2.toList) evicted (pop queue).1 := by
  unfold Drained at h ⊢
  rw [h]
  cases queue with
  | nil => simp only [pop, Option.toList_none, List.append_nil]
  | cons y rest =>
      simp only [pop, Option.toList_some, List.append_assoc, List.singleton_append]

end BoundedFifo

end ShredStream
