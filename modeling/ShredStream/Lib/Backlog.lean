import Mathlib.Order.Bounds.Basic
import ShredStream.Lib.Feed

/-!
# Slow Users

What a feed costs a user who does not keep up. Every element that is put is
one more that the user is behind, until it is taken. A user who is behind by
more than the line can hold has lost what is in excess, the oldest first, and
does not lose it twice: later losses begin only when the user is behind by
more than ever before. So the number of lost elements is the largest excess
there ever was, and nothing is lost as long as there is none.

What is not lost is new. An element that the user takes is one of the last
that were put, as many as the line can hold.

## Main definitions

* `excess`: By how much a user is further behind than the line can hold.
* `Backlog`: What is lost, and how old is what is taken.

## Theorems

* `excess_eq`: The excess by what is in line.
* `backlog_moved`, `backlog_evicted`: What is seen next.
* `backlog_step`: One operation.
* `backlog_run`: Every run.
-/

namespace ShredStream

namespace Feed

open BoundedFifo

variable {α ε : Type}

/-- How many elements more than the line can hold were put and not taken,
    counting those that were lost. -/
def excess (capacity : Nat) (es : List (Event α ε)) : Nat :=
  (putOf es).length - (gotOf es).length - capacity

/-- What a user who does not keep up is in for. -/
structure Backlog (capacity : Nat) (es : List (Event α ε)) : Prop where
  /-- As many elements are lost as there ever were in excess. -/
  lost : IsGreatest {n | ∃ before, before <+: es ∧ n = excess capacity before} (lostOf es).length
  /-- Fewer have been put behind an element that is taken than the line holds. -/
  fresh : ∀ as x bs, es = as ++ .got x :: bs →
    ∃ older newer, putOf as = older ++ x :: newer ∧ newer.length < capacity

/-- The line is within its bound, and the backlog is as it should be. -/
structure Paced (s : State α ε) (es : List (Event α ε)) : Prop where
  kept : Kept s es
  bound : s.line.length ≤ s.capacity
  backlog : Backlog s.capacity es

/-- The excess is what was lost, when the line is full, and less otherwise. -/
theorem excess_eq (capacity : Nat) (es : List (Event α ε)) (line : List α)
    (h : Ledger (putOf es) (gotOf es) (lostOf es) line) :
    excess capacity es = line.length + (lostOf es).length - capacity := by
  have hlen := ledger_length _ _ _ _ h
  rw [excess]
  omega

/-- Nothing is lost, and at most one element is taken: the excess is no larger
    than before. -/
theorem backlog_moved (capacity : Nat) (es : List (Event α ε)) (e : Event α ε)
    (line line' : List α) (h : Backlog capacity es) (hbound : line.length ≤ capacity)
    (hbound' : line'.length ≤ capacity)
    (hledger : Ledger (putOf es) (gotOf es) (lostOf es) line)
    (hledger' : Ledger (putOf (es ++ [e])) (gotOf (es ++ [e])) (lostOf (es ++ [e])) line')
    (hlost : lostOf [e] = [])
    (hgot : ∀ x, e = .got x → ∃ rest, line = x :: rest) : Backlog capacity (es ++ [e]) := by
  have hsame : lostOf (es ++ [e]) = lostOf es := by rw [lostOf_append, hlost, List.append_nil]
  refine ⟨⟨?_, ?_⟩, ?_⟩
  · rcases h.lost.1 with ⟨before, hprefix, heq⟩
    rw [hsame]
    exact ⟨before, hprefix.trans (List.prefix_append es [e]), heq⟩
  · rintro n ⟨before, hprefix, rfl⟩
    rw [hsame]
    rcases List.prefix_concat_iff.mp hprefix with rfl | hprefix
    · rw [excess_eq capacity _ line' hledger', hsame]
      omega
    · exact h.lost.2 ⟨before, hprefix, rfl⟩
  · intro as x bs hsplit
    rcases append_eq_cases es [e] as bs (.got x) hsplit with ⟨cs, hes, _⟩ | ⟨cs, rfl, hnew⟩
    · exact h.fresh as x cs hes
    · -- It was the oldest in line.
      rcases List.append_eq_singleton_iff.mp hnew.symm with ⟨rfl, hone⟩ | ⟨_, hone⟩
      · rcases hgot x (List.cons.inj hone).1.symm with ⟨rest, rfl⟩
        rcases hledger with ⟨gone, hput, _⟩
        refine ⟨gone, rest, ?_, hbound⟩
        rw [List.append_nil]
        exact hput
      · cases hone

/-- An element is put into a full line, and the oldest is lost. -/
theorem backlog_evicted (capacity : Nat) (es : List (Event α ε)) (x y : α) (line' : List α)
    (h : Backlog capacity es) (hfull : line'.length = capacity)
    (hledger' : Ledger (putOf (es ++ [.put x, .lost y])) (gotOf (es ++ [.put x, .lost y]))
      (lostOf (es ++ [.put x, .lost y])) line') : Backlog capacity (es ++ [.put x, .lost y]) := by
  have hmore : (lostOf (es ++ [.put x, .lost y])).length = (lostOf es).length + 1 := by
    rw [lostOf_append, List.length_append]
    rfl
  have hexcess := excess_eq capacity _ line' hledger'
  -- It is in excess as soon as it is put.
  have hput : excess capacity (es ++ [.put x]) = excess capacity (es ++ [.put x, .lost y]) := by
    simp only [excess, putOf_append, gotOf_append]
    rfl
  refine ⟨⟨⟨_, List.prefix_refl _, by omega⟩, ?_⟩, ?_⟩
  · rintro n ⟨before, hprefix, rfl⟩
    rw [List.append_cons es] at hprefix
    rcases List.prefix_concat_iff.mp hprefix with rfl | hprefix
    · rw [← List.append_cons]
      omega
    rcases List.prefix_concat_iff.mp hprefix with rfl | hprefix
    · omega
    · have hle := h.lost.2 ⟨before, hprefix, rfl⟩
      omega
  · intro as z bs hsplit
    rcases append_eq_cases es _ as bs (.got z) hsplit with ⟨cs, hes, _⟩ | ⟨cs, _, hnew⟩
    · exact h.fresh as z cs hes
    · have hmem : (.got z : Event α ε) ∈ [.put x, .lost y] := by
        rw [hnew]
        exact List.mem_append_right cs List.mem_cons_self
      simp only [List.mem_cons, reduceCtorEq, List.not_mem_nil, or_self] at hmem

/-- One operation keeps the bound and the backlog. -/
theorem backlog_step (s : State α ε) (es : List (Event α ε)) (op : Op α ε) (t : State α ε)
    (new : List (Event α ε)) (hcap : 1 ≤ s.capacity) (h : Paced s es)
    (hstep : feed.step s op = some (t, new)) : t.capacity = s.capacity ∧ Paced t (es ++ new) := by
  have hkept := kept_step s es op t new h.kept hstep
  have haccount := h.kept.account
  have haccount' := hkept.account
  have hbound := h.bound
  have hbacklog := h.backlog
  rcases s with ⟨capacity, line, phase⟩
  simp only at hcap hbound hbacklog haccount
  -- Where nothing moves, nothing is asked of the backlog.
  have hsilent : ∀ e : Event α ε, lostOf [e] = [] → (∀ x, e ≠ .got x) → t.line = line →
      Ledger (putOf (es ++ [e])) (gotOf (es ++ [e])) (lostOf (es ++ [e])) t.line →
      Backlog capacity (es ++ [e]) := by
    intro e hlost hgot hline hledger
    rw [hline] at hledger
    exact backlog_moved capacity es e line line hbacklog hbound hbound haccount hledger hlost
      (fun x hx => absurd hx (hgot x))
  cases op with
  | put x =>
      rcases phase with _ | e | _ <;> simp only [feed, reduceCtorEq] at hstep
      cases hstep
      have hroom := length_forcePush capacity line x hcap hbound
      refine ⟨rfl, hkept, hroom, ?_⟩
      unfold forcePush at hroom haccount' ⊢
      by_cases hfull : line.length < capacity
      · simp only [if_pos hfull, Option.toList_none, List.map_nil] at hroom haccount' ⊢
        exact backlog_moved capacity es (.put x) line (line ++ [x]) hbacklog hbound hroom haccount
          haccount' rfl (fun y hy => by cases hy)
      · simp only [if_neg hfull] at hroom haccount' ⊢
        cases line with
        | nil => exact absurd hcap hfull
        | cons y rest =>
            refine backlog_evicted capacity es x y (rest ++ [x]) hbacklog ?_ haccount'
            rw [List.length_cons] at hfull hbound
            rw [List.length_append, List.length_singleton]
            omega
  | fail e =>
      rcases phase with _ | e' | _ <;> simp only [feed, reduceCtorEq] at hstep
      cases hstep
      rw [List.append_nil] at hkept ⊢
      exact ⟨rfl, hkept, hbound, hbacklog⟩
  | finish =>
      cases hstep
      rw [List.append_nil] at hkept ⊢
      exact ⟨rfl, hkept, hbound, hbacklog⟩
  | take =>
      rcases line with _ | ⟨x, rest⟩ <;> simp only [feed, reduceCtorEq] at hstep
      cases hstep
      refine ⟨rfl, hkept, Nat.le_of_succ_le hbound, ?_⟩
      exact backlog_moved capacity es (.got x) (x :: rest) rest hbacklog hbound
        (Nat.le_of_succ_le hbound) haccount haccount' rfl (fun y hy => by
          cases hy
          exact ⟨rest, rfl⟩)
  | look =>
      rcases line with _ | ⟨x, rest⟩ <;> simp only [feed, reduceCtorEq] at hstep
      cases hstep
      exact ⟨rfl, hkept, hbound, hsilent .nothing rfl (fun x hx => by cases hx) rfl haccount'⟩
  | ask =>
      rcases line with _ | ⟨x, rest⟩ <;> rcases phase with _ | e | _ <;>
        simp only [feed, reduceCtorEq] at hstep <;> cases hstep
      · exact ⟨rfl, hkept, hbound,
          hsilent (.failed e) rfl (fun x hx => by cases hx) rfl haccount'⟩
      · exact ⟨rfl, hkept, hbound, hsilent .ended rfl (fun x hx => by cases hx) rfl haccount'⟩

/-- Every run of a feed whose line holds an element at least. -/
theorem backlog_run (capacity : Nat) (hcap : 1 ≤ capacity) (ops : List (Op α ε)) (t : State α ε)
    (es : List (Event α ε)) (h : feed.run (new capacity) ops = some (t, es)) :
    Backlog capacity es := by
  have h0 : Paced (new capacity : State α ε) [] := by
    have hnone : excess capacity ([] : List (Event α ε)) = 0 := Nat.zero_sub capacity
    refine ⟨kept_new capacity, Nat.zero_le _, ⟨⟨[], List.prefix_refl [], hnone.symm⟩, ?_⟩, ?_⟩
    · rintro n ⟨before, hprefix, rfl⟩
      rw [List.prefix_nil.mp hprefix]
      exact hnone.le
    · intro as x bs hsplit
      exact absurd hsplit.symm (List.append_ne_nil_of_right_ne_nil as (List.cons_ne_nil _ bs))
  have hrun := Machine.run_invariant feed
    (fun _ s es => s.capacity = capacity ∧ Paced s es)
    (fun _ s es op s' new hs hstep => by
      rcases backlog_step s es op s' new (by rw [hs.1]; exact hcap) hs.2 hstep with ⟨hsame, hnext⟩
      exact ⟨hsame.trans hs.1, hnext⟩) ops [] _ t [] es ⟨rfl, h0⟩ h
  have hbacklog := hrun.2.backlog
  rwa [hrun.1] at hbacklog

end Feed

end ShredStream
