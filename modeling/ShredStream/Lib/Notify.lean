import Mathlib.Data.List.Basic

/-!
# Notifications

A primitive that wakes one waiter at a time. A waiter is registered when its
future is polled for the first time, unless a permit is stored: then it takes
the permit and does not wait. `notifyOne` marks the waiter registered longest
and removes it from the line, or stores a permit when nobody waits; there is
at most one permit. A marked waiter is ready when it is polled next. If it is
dropped instead, the mark it never used is passed on.

Waiters are numbered in the order of registration.

The rules below are for a primitive with one party that waits at a time. That
party may keep older waiters around, but it waits on one of them, the target,
and `Lined` says that no other waiter stands in line. Every notification then
reaches the target or is stored as a permit (`lined_notifyOne`), and this
survives registering, polling and dropping waiters.

## Main definitions

* `Notify`: The permit, the line, and the marked waiters.
* `notifyOne`: Wake one waiter.
* `register`: A waiter's first poll.
* `poll`: Any later poll.
* `drop`: A waiter goes away.
* `Lined`: Only the target stands in line.
* `Ready`: The target has been notified, or there is a permit.

## Theorems

* `lined_notifyOne`: A notification reaches the target.
* `lined_register`: A new waiter becomes the target, if there was none.
* `lined_poll`, `lined_drop`: A target that is polled or dropped leaves the
  line.
-/

namespace ShredStream

/-- The permit, the waiters that wait in line, the waiters that were notified
    and have not been polled since, and the number of the next waiter. -/
structure Notify where
  permit : Bool := false
  waiters : List Nat := []
  notified : List Nat := []
  next : Nat := 0
  deriving DecidableEq, Repr

namespace Notify

/-- Wake the waiter registered longest, or store a permit. -/
def notifyOne (n : Notify) : Notify :=
  match n.waiters with
  | [] => { n with permit := true }
  | w :: rest => { n with waiters := rest, notified := n.notified ++ [w] }

/-- The first poll of a waiter: ready with the permit, or in line under a new
    number. -/
def register (n : Notify) : Notify × Option Nat :=
  if n.permit then ({ n with permit := false }, none)
  else ({ n with waiters := n.waiters ++ [n.next], next := n.next + 1 }, some n.next)

/-- A later poll: ready if the waiter was notified. -/
def poll (n : Notify) (w : Nat) : Notify × Bool :=
  if w ∈ n.notified then ({ n with notified := n.notified.filter (· ≠ w) }, true)
  else (n, false)

/-- The waiter goes away; a notification it did not use is passed on. -/
def drop (n : Notify) (w : Nat) : Notify :=
  if w ∈ n.notified then notifyOne { n with notified := n.notified.filter (· ≠ w) }
  else { n with waiters := n.waiters.filter (· ≠ w) }

/-- At most the target stands in line, the waiters that somebody holds are in
    line or notified and not both, and numbers not given yet are nowhere. -/
structure Lined (n : Notify) (target : Option Nat) (held : Nat → Prop) : Prop where
  permit_idle : n.permit = true → n.waiters = []
  line : n.waiters = [] ∨ ∃ w, target = some w ∧ n.waiters = [w]
  known : ∀ w, held w → w ∈ n.notified ∨ n.waiters = [w]
  apart : ∀ w ∈ n.waiters, w ∉ n.notified
  fresh : ∀ w, w ∈ n.waiters ∨ w ∈ n.notified → w < n.next

/-- The target will not have to wait. -/
def Ready (n : Notify) (target : Option Nat) : Prop :=
  n.permit = true ∨ ∃ w, target = some w ∧ w ∈ n.notified

/-- Nobody stands in line when the target has been notified. -/
theorem waiters_of_notified (n : Notify) (w : Nat) (held : Nat → Prop)
    (h : Lined n (some w) held) (hw : w ∈ n.notified) : n.waiters = [] := by
  rcases h.line with hnil | ⟨v, hv, hline⟩
  · exact hnil
  · obtain rfl := Option.some.inj hv
    refine absurd hw (h.apart w ?_)
    rw [hline]
    exact List.mem_singleton_self w

/-- Nobody stands in line when there is no target. -/
theorem waiters_of_none (n : Notify) (held : Nat → Prop) (h : Lined n none held) :
    n.waiters = [] := by
  rcases h.line with hnil | ⟨w, hw, _⟩
  · exact hnil
  · cases hw

/-- The target may change while nobody stands in line, and waiters may be let
    go of. -/
theorem lined_retarget (n : Notify) (target target' : Option Nat) (held held' : Nat → Prop)
    (h : Lined n target held) (ht : n.waiters = [] ∨ target' = target)
    (hheld : ∀ w, held' w → held w) : Lined n target' held' := by
  refine ⟨h.permit_idle, ?_, fun w hw => h.known w (hheld w hw), h.apart, h.fresh⟩
  rcases ht with hnil | rfl
  · exact Or.inl hnil
  · exact h.line

/-- A notification reaches the target, or is stored. -/
theorem lined_notifyOne (n : Notify) (target : Option Nat) (held : Nat → Prop)
    (h : Lined n target held) :
    Lined n.notifyOne target held ∧ Ready n.notifyOne target := by
  rcases h.line with hnil | ⟨w, rfl, hline⟩
  · -- Nobody waits: the notification is stored.
    have hn : n.notifyOne = { n with permit := true } := by
      rw [notifyOne, hnil]
    rw [hn]
    exact ⟨⟨fun _ => hnil, Or.inl hnil, h.known, h.apart, h.fresh⟩, Or.inl rfl⟩
  · -- The target is the one in line.
    have hn : n.notifyOne = { n with waiters := [], notified := n.notified ++ [w] } := by
      rw [notifyOne, hline]
    have hmem : w ∈ n.notified ++ [w] := List.mem_append_right _ (List.mem_singleton_self w)
    rw [hn]
    refine ⟨⟨fun _ => rfl, Or.inl rfl, fun v hv => Or.inl ?_, fun v hv => ?_, fun v hv => ?_⟩,
      Or.inr ⟨w, rfl, hmem⟩⟩
    · rcases h.known v hv with hin | hv
      · exact List.mem_append_left _ hin
      · rw [hline, List.cons.injEq] at hv
        rw [← hv.1]
        exact hmem
    · exact absurd hv List.not_mem_nil
    · rcases hv with hv | hv
      · exact absurd hv List.not_mem_nil
      · rcases List.mem_append.mp hv with hin | hin
        · exact h.fresh v (Or.inr hin)
        · refine h.fresh v (Or.inl ?_)
          rwa [hline]

/-- The first poll takes the permit, and nobody waits. -/
theorem register_permit (n : Notify) (hp : n.permit = true) :
    n.register = ({ n with permit := false }, none) := by
  rw [register, if_pos hp]

theorem register_wait (n : Notify) (hp : n.permit ≠ true) :
    n.register
      = ({ n with waiters := n.waiters ++ [n.next], next := n.next + 1 }, some n.next) := by
  rw [register, if_neg hp]

theorem lined_take (n : Notify) (target : Option Nat) (held : Nat → Prop)
    (h : Lined n target held) (hp : n.permit = true) :
    Lined { n with permit := false } target held :=
  ⟨fun _ => h.permit_idle hp, Or.inl (h.permit_idle hp), h.known, h.apart, h.fresh⟩

/-- Where there was no target, a new waiter becomes it. -/
theorem lined_register (n : Notify) (held : Nat → Prop) (h : Lined n none held)
    (hp : n.permit ≠ true) :
    Lined { n with waiters := n.waiters ++ [n.next], next := n.next + 1 } (some n.next)
        (fun w => held w ∨ w = n.next) ∧
      ∀ w, held w → w ≠ n.next := by
  have hnil := waiters_of_none n held h
  have hold : ∀ w, held w → w ∈ n.notified := by
    intro w hw
    rcases h.known w hw with hin | hline
    · exact hin
    · rw [hnil] at hline
      cases hline
  -- A number that was not given yet is nobody's.
  have hnew : n.next ∉ n.notified := by
    intro hin
    exact Nat.lt_irrefl _ (h.fresh n.next (Or.inr hin))
  rw [hnil, List.nil_append]
  refine ⟨⟨fun hp' => absurd hp' hp, Or.inr ⟨n.next, rfl, rfl⟩, ?_, ?_, ?_⟩, ?_⟩
  · rintro w (hw | rfl)
    · exact Or.inl (hold w hw)
    · exact Or.inr rfl
  · intro w hw
    rw [List.mem_singleton.mp hw]
    exact hnew
  · rintro w (hw | hw)
    · rw [List.mem_singleton.mp hw]
      exact Nat.lt_succ_self _
    · exact Nat.lt_succ_of_lt (h.fresh w (Or.inr hw))
  · rintro w hw rfl
    exact hnew (hold _ hw)

theorem poll_notified (n : Notify) (w : Nat) (hw : w ∈ n.notified) :
    n.poll w = ({ n with notified := n.notified.filter (· ≠ w) }, true) := by
  rw [poll, if_pos hw]

theorem poll_waiting (n : Notify) (w : Nat) (hw : w ∉ n.notified) : n.poll w = (n, false) := by
  rw [poll, if_neg hw]

/-- A target that is polled after it was notified is done with. -/
theorem lined_poll (n : Notify) (w : Nat) (target' : Option Nat) (held : Nat → Prop)
    (h : Lined n (some w) held) (hw : w ∈ n.notified) :
    Lined { n with notified := n.notified.filter (· ≠ w) } target'
      (fun v => held v ∧ v ≠ w) := by
  have hnil := waiters_of_notified n w held h hw
  refine ⟨h.permit_idle, Or.inl hnil, ?_, ?_, ?_⟩
  · rintro v ⟨hv, hne⟩
    rcases h.known v hv with hin | hline
    · exact Or.inl (List.mem_filter.mpr ⟨hin, by simpa only [decide_eq_true_eq] using hne⟩)
    · rw [hnil] at hline
      cases hline
  · intro v hv hin
    exact h.apart v hv (List.mem_filter.mp hin).1
  · rintro v (hv | hv)
    · exact h.fresh v (Or.inl hv)
    · exact h.fresh v (Or.inr (List.mem_filter.mp hv).1)

/-- A target that is dropped leaves the line, and passes on what it did not
    use. -/
theorem lined_drop (n : Notify) (w : Nat) (target' : Option Nat) (held : Nat → Prop)
    (h : Lined n (some w) held) : Lined (n.drop w) target' (fun v => held v ∧ v ≠ w) := by
  by_cases hw : w ∈ n.notified
  · -- Polling it would have used the notification; dropping it hands it on.
    rw [drop, if_pos hw]
    exact (lined_notifyOne _ target' _ (lined_poll n w target' held h hw)).1
  · have hempty : n.waiters.filter (· ≠ w) = [] := by
      rcases h.line with hnil | ⟨v, hv, hline⟩
      · rw [hnil, List.filter_nil]
      · rw [hline, Option.some.inj hv]
        simp only [ne_eq, not_true_eq_false, decide_false, Bool.false_eq_true, not_false_eq_true,
          List.filter_cons_of_neg, List.filter_nil]
    rw [drop, if_neg hw, hempty]
    refine ⟨fun _ => rfl, Or.inl rfl, ?_, ?_, ?_⟩
    · rintro v ⟨hv, hne⟩
      rcases h.known v hv with hin | hline
      · exact Or.inl hin
      · rcases h.line with hnil | ⟨x, hx, hx'⟩
        · rw [hnil] at hline
          cases hline
        · rw [hline, List.cons.injEq] at hx'
          exact absurd (hx'.1.trans (Option.some.inj hx).symm) hne
    · intro v hv
      exact absurd hv List.not_mem_nil
    · rintro v (hv | hv)
      · exact absurd hv List.not_mem_nil
      · exact h.fresh v (Or.inr hv)

end Notify

end ShredStream
