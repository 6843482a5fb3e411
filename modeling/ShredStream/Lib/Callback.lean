import ShredStream.Lib.Machine

/-!
# Callbacks

A slot that holds at most one callback. Setting it replaces the callback that
was there; firing calls the one that is there at that moment, and is lost when
there is none.

`Machine.hooked` is a machine that reports through such a slot: some of its
outputs are reports, and the user may set the slot between any two steps. What
comes out is which callback heard which report. The machine below runs as it
would alone, so what is known of its outputs is known of what is heard. The
first `set` cuts its run in two (`hooked_run`): of the reports before it none
is heard, and of those behind it every one, once and in order.

## Main definitions

* `Slot`: At most one callback.
* `Machine.hooked`: A machine that reports through a slot.
* `ownOf`: The inputs of the machine itself.
* `beforeSet`, `afterSet`: Those before and behind the first callback.

## Theorems

* `listening_run`: With a callback every report is heard.
* `hooked_run`: What is heard is what is reported behind the first callback.
-/

namespace ShredStream

/-- A slot for a callback. -/
abbrev Slot (κ : Type) := Option κ

namespace Slot

variable {κ ν : Type}

/-- Replace the callback. -/
def set (_ : Slot κ) (k : κ) : Slot κ := some k

/-- The call that a report leads to. -/
def fire (slot : Slot κ) (n : ν) : List (κ × ν) :=
  match slot with
  | some k => [(k, n)]
  | none => []

end Slot

namespace Machine

variable {σ α ο κ ν : Type} (M : Machine σ α ο) (report : ο → Option ν)

/-- An input of the machine, or the slot is set. -/
inductive Hooked (α κ : Type) where
  | own (a : α)
  | set (k : κ)

/-- The inputs of the machine itself. -/
def ownOf (inputs : List (Hooked α κ)) : List α :=
  inputs.filterMap (fun | .own a => some a | .set _ => none)

/-- The machine with a slot that its reports go through. -/
def hooked : Machine (σ × Slot κ) (Hooked α κ) (κ × ν) where
  step s
    | .set k => some ((s.1, s.2.set k), [])
    | .own a => match M.step s.1 a with
      | none => none
      | some (t, os) => some ((t, s.2), (os.filterMap report).flatMap s.2.fire)

/-- The inputs of the machine until the slot is set for the first time. -/
def beforeSet : List (Hooked α κ) → List α
  | .own a :: inputs => a :: beforeSet inputs
  | _ => []

/-- The inputs of the machine from then on. -/
def afterSet : List (Hooked α κ) → List α
  | .own _ :: inputs => afterSet inputs
  | inputs => ownOf inputs

theorem ownOf_eq (inputs : List (Hooked α κ)) :
    ownOf inputs = beforeSet inputs ++ afterSet inputs := by
  induction inputs with
  | nil => rfl
  | cons i inputs ih =>
      cases i with
      | set k => rfl
      | own a => exact congrArg (a :: ·) ih

/-- A slot with a callback calls it for every report. -/
theorem flatMap_fire (k : κ) (ns : List ν) :
    (ns.flatMap (Slot.fire (some k))).map (fun x => x.2) = ns := by
  induction ns with
  | nil => rfl
  | cons n ns ih => exact congrArg (n :: ·) ih

/-- A step of the machine itself. -/
theorem hooked_own (s s' : σ × Slot κ) (a : α) (heard : List (κ × ν))
    (h : (hooked M report).step s (.own a) = some (s', heard)) :
    ∃ new, M.step s.1 a = some (s'.1, new) ∧ s'.2 = s.2 ∧
      heard = (new.filterMap report).flatMap s.2.fire := by
  simp only [hooked] at h
  rcases hown : M.step s.1 a with _ | ⟨u, new⟩ <;> rw [hown] at h
  · cases h
  · simp only [Option.some.injEq, Prod.mk.injEq] at h
    rcases h with ⟨rfl, rfl⟩
    exact ⟨new, rfl, rfl, rfl⟩

/-- Once a callback is there, the machine runs as it would alone and every
    report is heard. -/
theorem listening_run (inputs : List (Hooked α κ)) : ∀ (s t : σ × Slot κ) (heard : List (κ × ν)),
    s.2 ≠ none → (hooked M report).run s inputs = some (t, heard) →
      ∃ os, M.run s.1 (ownOf inputs) = some (t.1, os) ∧
        heard.map (fun x => x.2) = os.filterMap report := by
  induction inputs with
  | nil =>
      intro s t heard hs h
      simp only [run_nil, Option.some.injEq, Prod.mk.injEq] at h
      rcases h with ⟨rfl, rfl⟩
      exact ⟨[], rfl, rfl⟩
  | cons i inputs ih =>
      intro s t heard hs h
      rcases run_cons (hooked M report) s t i inputs heard h with ⟨s', h₁, h₂, hstep, hrest, rfl⟩
      cases i with
      | set k =>
          simp only [hooked, Option.some.injEq, Prod.mk.injEq] at hstep
          rcases hstep with ⟨rfl, rfl⟩
          exact ih (s.1, some k) t h₂ (Option.some_ne_none k) hrest
      | own a =>
          rcases hooked_own M report s s' a h₁ hstep with ⟨new, hown, hsame, rfl⟩
          rcases ih s' t h₂ (by rw [hsame]; exact hs) hrest with ⟨os, hrun, hheard⟩
          rcases Option.ne_none_iff_exists'.mp hs with ⟨k, hk⟩
          refine ⟨new ++ os, ?_, ?_⟩
          · change M.run s.1 (a :: ownOf inputs) = _
            rw [run_cons_of_step M s.1 s'.1 a (ownOf inputs) new hown, hrun]
            rfl
          · rw [List.map_append, hheard, hk, flatMap_fire, List.filterMap_append]

/-- The machine runs as it would alone. Nothing is heard until a callback is
    set for the first time, and from then on every report is, in order. -/
theorem hooked_run (inputs : List (Hooked α κ)) : ∀ (s : σ) (t : σ × Slot κ) (heard : List (κ × ν)),
    (hooked M report).run (s, none) inputs = some (t, heard) →
      ∃ u early late, M.run s (beforeSet inputs) = some (u, early) ∧
        M.run u (afterSet inputs) = some (t.1, late) ∧
        heard.map (fun x => x.2) = late.filterMap report := by
  induction inputs with
  | nil =>
      intro s t heard h
      simp only [run_nil, Option.some.injEq, Prod.mk.injEq] at h
      rcases h with ⟨rfl, rfl⟩
      exact ⟨s, [], [], rfl, rfl, rfl⟩
  | cons i inputs ih =>
      intro s t heard h
      cases i with
      | set k =>
          rcases listening_run M report (.set k :: inputs) (s, some k) t heard
            (Option.some_ne_none k) h with ⟨os, hrun, hheard⟩
          exact ⟨s, [], os, rfl, hrun, hheard⟩
      | own a =>
          rcases run_cons (hooked M report) (s, none) t _ inputs heard h with
            ⟨s', h₁, h₂, hstep, hrest, rfl⟩
          rcases hooked_own M report (s, none) s' a h₁ hstep with ⟨new, hown, hsame, rfl⟩
          rcases s' with ⟨s', slot⟩
          simp only at hsame
          subst hsame
          rcases ih s' t h₂ hrest with ⟨u, early, late, hearly, hlate, hheard⟩
          refine ⟨u, new ++ early, late, ?_, hlate, ?_⟩
          · change M.run s (a :: beforeSet inputs) = _
            rw [run_cons_of_step M s s' a (beforeSet inputs) new hown, hearly]
            rfl
          · -- Without a callback the reports of this step are lost.
            have hlost : (new.filterMap report).flatMap (Slot.fire (none : Slot κ)) = [] :=
              List.flatMap_eq_nil_iff.mpr (fun n _ => rfl)
            rw [hlost, List.nil_append, hheard]

end Machine

end ShredStream
