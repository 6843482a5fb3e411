import Mathlib.Data.List.Basic

/-!
# Edit Distance

How far two lists are apart: the number of single edits, each of which puts in
an element, takes one out or replaces one, that lead from the one to the other.
The same edits lead back, and edits can be put one behind the other.

A transducer reads one list and writes another. What it writes may depend on
all that it has read, so in general one edit of what is read can change
everything that is written from there on. Not so when the transducer is
forgetful: from any two states it soon writes the same, and until then at most
one element from each, which a state that has just written no longer has to
spare. Then an edit of what is read is at most one edit of what is written, and
the transducer never takes two lists further apart than they are.

## Main definitions

* `Edits`: At most so many edits apart.
* `Transducer`: Reads one list and writes another.
* `Transducer.Forgetful`: What was read before soon does not matter.

## Theorems

* `edits_symm`, `edits_trans`: Distances are symmetric, and they add up.
* `edits_sublist`: A list and what is left of it.
* `outputs_edit`: One edit of what is read is at most one of what is written.
* `edits_outputs`: A forgetful transducer does not increase distances.
-/

namespace ShredStream

namespace EditDistance

variable {α β σ : Type}

/-- The lists are at most `n` edits apart. -/
inductive Edits : Nat → List α → List α → Prop
  | refl (xs : List α) : Edits 0 xs xs
  | edit (n : Nat) (xs front old new back : List α) (hold : old.length ≤ 1)
      (hnew : new.length ≤ 1) (h : Edits n xs (front ++ old ++ back)) :
      Edits (n + 1) xs (front ++ new ++ back)

/-- One edit. -/
theorem edits_one (front old new back : List α) (hold : old.length ≤ 1) (hnew : new.length ≤ 1) :
    Edits 1 (front ++ old ++ back) (front ++ new ++ back) :=
  .edit 0 _ front old new back hold hnew (.refl _)

/-- One after the other. -/
theorem edits_trans (n m : Nat) (xs ys zs : List α) (h : Edits n xs ys) (h' : Edits m ys zs) :
    Edits (n + m) xs zs := by
  induction h' with
  | refl ys => exact h
  | edit m ys front old new back hold hnew _ ih => exact .edit (n + m) xs _ _ _ _ hold hnew (ih h)

/-- And back. -/
theorem edits_symm (n : Nat) (xs ys : List α) (h : Edits n xs ys) : Edits n ys xs := by
  induction h with
  | refl xs => exact .refl xs
  | edit n xs front old new back hold hnew _ ih =>
      rw [Nat.add_comm]
      exact edits_trans 1 n _ _ _ (edits_one front new old back hnew hold) ih

/-- Behind the same element. -/
theorem edits_cons (x : α) (n : Nat) (xs ys : List α) (h : Edits n xs ys) :
    Edits n (x :: xs) (x :: ys) := by
  induction h with
  | refl xs => exact .refl (x :: xs)
  | edit n xs front old new back hold hnew _ ih =>
      exact .edit n (x :: xs) (x :: front) old new back hold hnew ih

/-- What is left of a list is as far from it as elements are missing. -/
theorem edits_sublist (xs ys : List α) (h : xs.Sublist ys) :
    Edits (ys.length - xs.length) xs ys := by
  induction h with
  | slnil => exact .refl []
  | @cons xs ys y hsub ih =>
      have hle := hsub.length_le
      rw [List.length_cons, Nat.succ_sub hle]
      exact .edit _ xs [] [] [y] ys (Nat.zero_le 1) (Nat.le_refl 1) ih
  | @cons_cons xs ys y hsub ih =>
      rw [List.length_cons, List.length_cons, Nat.add_sub_add_right]
      exact edits_cons y _ xs ys ih

/-- Element by element. -/
theorem edits_map (f : α → β) (n : Nat) (xs ys : List α) (h : Edits n xs ys) :
    Edits n (xs.map f) (ys.map f) := by
  induction h with
  | refl xs => exact .refl (xs.map f)
  | edit n xs front old new back hold hnew _ ih =>
      rw [List.map_append, List.map_append] at ih ⊢
      refine .edit n (xs.map f) (front.map f) (old.map f) (new.map f) (back.map f) ?_ ?_ ih
      · rw [List.length_map]
        exact hold
      · rw [List.length_map]
        exact hnew

/-! ### Transducers -/

/-- Reads a list, element by element, and writes another. -/
structure Transducer (σ α β : Type) where
  next : σ → α → σ
  emit : σ → α → List β

namespace Transducer

variable (T : Transducer σ α β)

/-- What is written from a state on. -/
def outputs : σ → List α → List β
  | _, [] => []
  | s, x :: xs => T.emit s x ++ outputs (T.next s x) xs

/-- The state after some elements. -/
def after (s : σ) (xs : List α) : σ := xs.foldl T.next s

theorem outputs_append (xs ys : List α) : ∀ s : σ,
    T.outputs s (xs ++ ys) = T.outputs s xs ++ T.outputs (T.after s xs) ys := by
  induction xs with
  | nil =>
      intro s
      rfl
  | cons x xs ih =>
      intro s
      rw [List.cons_append, outputs, outputs, ih, List.append_assoc]
      rfl

/-- From any two states the same is written in the end, and before it no more
    than each of them has to spare, which is at most one element and none right
    after it was spent. -/
structure Forgetful (spare : σ → Nat) : Prop where
  converge : ∀ s s' xs, ∃ extra extra' common, T.outputs s xs = extra ++ common ∧
    T.outputs s' xs = extra' ++ common ∧ extra.length ≤ spare s ∧ extra'.length ≤ spare s'
  bound : ∀ s, spare s ≤ 1
  spent : ∀ s x, (T.emit s x).length + spare (T.next s x) ≤ 1

/-- At most one element is read: no more is written and to spare than one. -/
theorem spent_short (spare : σ → Nat) (hT : T.Forgetful spare) (s : σ) (xs : List α)
    (h : xs.length ≤ 1) : (T.outputs s xs).length + spare (T.after s xs) ≤ 1 := by
  rcases xs with _ | ⟨x, _ | ⟨x', xs⟩⟩
  · rw [outputs, List.length_nil, Nat.zero_add]
    exact hT.bound s
  · rw [outputs, outputs, List.append_nil]
    exact hT.spent s x
  · simp only [List.length_cons] at h
    omega

/-- One edit of what is read is at most one edit of what is written. -/
theorem outputs_edit (spare : σ → Nat) (hT : T.Forgetful spare) (s : σ)
    (front old new back : List α) (hold : old.length ≤ 1) (hnew : new.length ≤ 1) :
    ∃ front' old' new' back', T.outputs s (front ++ old ++ back) = front' ++ old' ++ back' ∧
      T.outputs s (front ++ new ++ back) = front' ++ new' ++ back' ∧
      old'.length ≤ 1 ∧ new'.length ≤ 1 := by
  let u := T.after s front
  -- Behind the edit the two sides are in different states, but not for long.
  rcases hT.converge (T.after u old) (T.after u new) back with
    ⟨extra, extra', common, h, h', hlen, hlen'⟩
  have hpaid := T.spent_short spare hT u old hold
  have hpaid' := T.spent_short spare hT u new hnew
  refine ⟨T.outputs s front, T.outputs u old ++ extra, T.outputs u new ++ extra', common,
    ?_, ?_, ?_, ?_⟩
  · rw [List.append_assoc, T.outputs_append, T.outputs_append old, h]
    simp only [List.append_assoc]
    rfl
  · rw [List.append_assoc, T.outputs_append, T.outputs_append new, h']
    simp only [List.append_assoc]
    rfl
  · rw [List.length_append]
    omega
  · rw [List.length_append]
    omega

/-- What is written is not further apart than what is read. -/
theorem edits_outputs (spare : σ → Nat) (hT : T.Forgetful spare) (s : σ) (n : Nat)
    (xs ys : List α) (h : Edits n xs ys) : Edits n (T.outputs s xs) (T.outputs s ys) := by
  induction h with
  | refl xs => exact .refl (T.outputs s xs)
  | edit n xs front old new back hold hnew _ ih =>
      rcases T.outputs_edit spare hT s front old new back hold hnew with
        ⟨front', old', new', back', h, h', hold', hnew'⟩
      rw [h] at ih
      rw [h']
      exact .edit n _ front' old' new' back' hold' hnew' ih

end Transducer

end EditDistance

end ShredStream
