/-!
# Machines with Outputs

A deterministic machine that is driven from outside: each input either is
refused in the current state or takes the machine to a successor and makes it
emit some outputs. Everything nondeterministic about a system — which party
moves next, what the network answers, what the clock says — is in the inputs,
so a statement about every input list is a statement about every
interleaving.

`run` folds the step over a list of inputs. Two rules cover almost every proof
about runs. `run_split` cuts a run at a chosen input and gives the states on
both sides of it. `run_invariant` carries a relation between the inputs
consumed, the state reached and the outputs emitted; a plain state invariant
is the special case that ignores the two histories.

## Main definitions

* `Machine`: A step function that may refuse an input.
* `Machine.run`: Feeding a list of inputs.
* `Machine.Takes`: A step of a run, with what came before it.
* `Machine.Guarded`: Runs whose steps all meet a condition.

## Theorems

* `run_append`: A run over two lists is a run over the first, then the second.
* `run_split`: Cutting a run at one of its inputs.
* `takes_last`, `takes_mem`: The step taken last, and steps in order.
* `takes_cons_iff`: The step taken first, or one after it.
* `run_invariant`: A relation kept by every step is kept by every run.
* `guarded_invariant`: The same for a predicate on states, over runs whose steps
  all meet a condition.
-/

namespace ShredStream

/-- A deterministic machine. `none` means that the input is not possible in
    that state. -/
structure Machine (σ α ο : Type) where
  step : σ → α → Option (σ × List ο)

namespace Machine

variable {σ α ο : Type} (M : Machine σ α ο)

/-- Feed the inputs one after the other, collecting the outputs. -/
def run : σ → List α → Option (σ × List ο)
  | s, [] => some (s, [])
  | s, a :: as => match M.step s a with
    | none => none
    | some (s', os) => match run s' as with
      | none => none
      | some (t, os') => some (t, os ++ os')

theorem run_nil (s : σ) : M.run s [] = some (s, []) := rfl

theorem run_cons_of_step (s s' : σ) (a : α) (as : List α) (os : List ο)
    (h : M.step s a = some (s', os)) :
    M.run s (a :: as) = (M.run s' as).map (fun r => (r.1, os ++ r.2)) := by
  simp only [run, h]
  cases M.run s' as with
  | none => rfl
  | some r => rfl

/-- One step is a run. -/
theorem run_singleton (s s' : σ) (a : α) (os : List ο)
    (h : M.step s a = some (s', os)) : M.run s [a] = some (s', os) := by
  rw [run_cons_of_step M s s' a [] os h, run_nil, Option.map_some, List.append_nil]

/-- A run that starts with `a` takes the step `a` first. -/
theorem run_cons (s t : σ) (a : α) (as : List α) (os : List ο)
    (h : M.run s (a :: as) = some (t, os)) :
    ∃ s' os₁ os₂, M.step s a = some (s', os₁) ∧ M.run s' as = some (t, os₂) ∧
      os = os₁ ++ os₂ := by
  cases hstep : M.step s a with
  | none =>
      simp only [run, hstep, reduceCtorEq] at h
  | some r =>
      rw [run_cons_of_step M s r.1 a as r.2 hstep] at h
      rcases Option.map_eq_some_iff.mp h with ⟨q, hq, heq⟩
      rw [Prod.mk.injEq] at heq
      refine ⟨r.1, r.2, q.2, rfl, ?_, heq.2.symm⟩
      rw [hq, ← heq.1]

/-- A run over two lists is a run over the first, then over the second. -/
theorem run_append (s t : σ) (as bs : List α) (os : List ο) :
    M.run s (as ++ bs) = some (t, os) ↔
      ∃ m os₁ os₂, M.run s as = some (m, os₁) ∧ M.run m bs = some (t, os₂) ∧
        os = os₁ ++ os₂ := by
  induction as generalizing s os with
  | nil =>
      -- The first part is empty, so it ends where it starts.
      constructor
      · intro h
        exact ⟨s, [], os, rfl, h, rfl⟩
      · rintro ⟨m, os₁, os₂, h₁, h₂, rfl⟩
        simp only [run_nil, Option.some.injEq, Prod.mk.injEq] at h₁
        rcases h₁ with ⟨rfl, rfl⟩
        exact h₂
  | cons a as ih =>
      constructor
      · intro h
        rcases run_cons M s t a (as ++ bs) os h with ⟨s', o₁, o₂, hstep, hrest, rfl⟩
        rcases (ih s' o₂).mp hrest with ⟨m, p₁, p₂, h₁, h₂, rfl⟩
        refine ⟨m, o₁ ++ p₁, p₂, ?_, h₂, (List.append_assoc _ _ _).symm⟩
        rw [run_cons_of_step M s s' a as o₁ hstep, h₁]
        rfl
      · rintro ⟨m, os₁, os₂, h₁, h₂, rfl⟩
        rcases run_cons M s m a as os₁ h₁ with ⟨s', o₁, o₂, hstep, hrest, rfl⟩
        have htail := (ih s' (o₂ ++ os₂)).mpr ⟨m, o₂, os₂, hrest, h₂, rfl⟩
        rw [List.cons_append, run_cons_of_step M s s' a (as ++ bs) o₁ hstep, htail]
        simp only [Option.map_some, List.append_assoc]

/-- Cutting a run at one of its inputs: the state before it, the step it
    takes, and the rest of the run. -/
theorem run_split (s t : σ) (as bs : List α) (a : α) (os : List ο)
    (h : M.run s (as ++ a :: bs) = some (t, os)) :
    ∃ u v os₁ os₂ os₃, M.run s as = some (u, os₁) ∧ M.step u a = some (v, os₂) ∧
      M.run v bs = some (t, os₃) ∧ os = os₁ ++ os₂ ++ os₃ := by
  rcases (run_append M s t as (a :: bs) os).mp h with ⟨u, os₁, os', h₁, h₂, rfl⟩
  rcases run_cons M u t a bs os' h₂ with ⟨v, os₂, os₃, hstep, hrest, rfl⟩
  exact ⟨u, v, os₁, os₂, os₃, h₁, hstep, hrest, (List.append_assoc _ _ _).symm⟩

/-- A run over `inputs` takes the input `a` from `u` to `v`, emitting `new`,
    once it has consumed `as`. -/
def Takes (s : σ) (inputs as : List α) (a : α) (u v : σ) (new : List ο) : Prop :=
  ∃ bs os, inputs = as ++ a :: bs ∧ M.run s as = some (u, os) ∧ M.step u a = some (v, new)

/-- A run that has consumed something has taken a last input. -/
theorem takes_last (s u : σ) (as : List α) (os : List ο) (hne : as ≠ [])
    (h : M.run s as = some (u, os)) :
    ∃ before a w new, as = before ++ [a] ∧ M.Takes s as before a w u new := by
  -- Split at the last input; nothing is left to run behind it.
  rcases List.eq_nil_or_concat as with rfl | ⟨before, a, rfl⟩
  · exact absurd rfl hne
  rw [List.concat_eq_append] at h ⊢
  rcases run_split M s u before [] a os h with ⟨w, v, os₁, os₂, os₃, h₁, h₂, h₃, _⟩
  rw [run_nil, Option.some.injEq, Prod.mk.injEq] at h₃
  rw [h₃.1] at h₂
  exact ⟨before, a, w, os₂, rfl, [], os₁, rfl, h₁, h₂⟩

/-- Of two inputs of one run, the one taken earlier is among those consumed
    before the other. -/
theorem takes_mem (s u v u' v' : σ) (inputs as as' : List α) (a a' : α) (new new' : List ο)
    (h : M.Takes s inputs as a u v new) (h' : M.Takes s inputs as' a' u' v' new')
    (hlt : as.length < as'.length) : a ∈ as' := by
  rcases h with ⟨bs, _, hinputs, _, _⟩
  rcases h' with ⟨bs', _, hinputs', _, _⟩
  -- The earlier input stands at its own position in the list of inputs.
  have hget : inputs[as.length]? = some a := by
    rw [hinputs, List.getElem?_append_right (Nat.le_refl _), Nat.sub_self, List.getElem?_cons_zero]
  rw [hinputs', List.getElem?_append_left hlt] at hget
  exact List.mem_of_getElem? hget

/-- A step of a run is its first, or a step of what follows. -/
theorem takes_cons_iff (s s' u v : σ) (a b : α) (as before : List α) (os new : List ο)
    (h : M.step s a = some (s', os)) : M.Takes s (a :: as) before b u v new ↔
      (before = [] ∧ b = a ∧ u = s ∧ v = s' ∧ new = os) ∨
        ∃ before', before = a :: before' ∧ M.Takes s' as before' b u v new := by
  constructor
  · rintro ⟨bs, os₁, hinputs, h₁, h₂⟩
    rcases before with _ | ⟨a', before⟩
    · rw [List.nil_append, List.cons.injEq] at hinputs
      rcases hinputs with ⟨rfl, rfl⟩
      rw [run_nil, Option.some.injEq, Prod.mk.injEq] at h₁
      rw [← h₁.1, h, Option.some.injEq, Prod.mk.injEq] at h₂
      exact Or.inl ⟨rfl, rfl, h₁.1.symm, h₂.1.symm, h₂.2.symm⟩
    · rw [List.cons_append, List.cons.injEq] at hinputs
      rcases hinputs with ⟨rfl, rfl⟩
      rcases run_cons M s u a before os₁ h₁ with ⟨w, o₁, o₂, hstep, hrest, _⟩
      rw [h, Option.some.injEq, Prod.mk.injEq] at hstep
      rw [← hstep.1] at hrest
      exact Or.inr ⟨before, rfl, bs, o₂, rfl, hrest, h₂⟩
  · rintro (⟨rfl, rfl, rfl, rfl, rfl⟩ | ⟨before', rfl, bs, os₁, rfl, h₁, h₂⟩)
    · exact ⟨as, [], rfl, rfl, h⟩
    · refine ⟨bs, os ++ os₁, rfl, ?_, h₂⟩
      rw [run_cons_of_step M s s' a before' os h, h₁]
      rfl

/-- A relation between the inputs consumed, the state reached and the outputs
    emitted, kept by every step, is kept by every run. -/
theorem run_invariant (I : List α → σ → List ο → Prop)
    (hstep : ∀ as s os a s' new, I as s os → M.step s a = some (s', new) →
      I (as ++ [a]) s' (os ++ new)) :
    ∀ (bs : List α) (as : List α) (s t : σ) (os new : List ο), I as s os →
      M.run s bs = some (t, new) → I (as ++ bs) t (os ++ new) := by
  -- The histories grow at the end, so the induction is on what is still to come.
  intro bs
  induction bs with
  | nil =>
      intro as s t os new hI h
      simp only [run_nil, Option.some.injEq, Prod.mk.injEq] at h
      rcases h with ⟨rfl, rfl⟩
      simpa only [List.append_nil] using hI
  | cons b bs ih =>
      intro as s t os new hI h
      rcases run_cons M s t b bs new h with ⟨s', o₁, o₂, hs, hrest, rfl⟩
      have hnext := ih (as ++ [b]) s' t (os ++ o₁) o₂ (hstep as s os b s' o₁ hI hs) hrest
      simpa only [List.append_assoc, List.singleton_append] using hnext

/-- Every step of the run is taken from a state and with an input that `P`
    allows. -/
def Guarded (P : σ → α → Prop) : σ → List α → Prop
  | _, [] => True
  | s, a :: as => P s a ∧ match M.step s a with
    | none => True
    | some (s', _) => Guarded P s' as

instance decidableGuarded (P : σ → α → Prop) [∀ s a, Decidable (P s a)] :
    ∀ (s : σ) (as : List α), Decidable (M.Guarded P s as)
  | _, [] => .isTrue trivial
  | s, a :: as =>
      match h : M.step s a with
      | none => decidable_of_iff (P s a) (by rw [Guarded, h]; simp only [and_true])
      | some (s', os) =>
          have := decidableGuarded P s' as
          decidable_of_iff (P s a ∧ M.Guarded P s' as) (by rw [Guarded, h])

/-- A predicate on states kept by every step that `P` allows is kept by every
    run of such steps. -/
theorem guarded_invariant (P : σ → α → Prop) (I : σ → Prop)
    (hstep : ∀ s a s' new, I s → P s a → M.step s a = some (s', new) → I s')
    (as : List α) : ∀ (s t : σ) (os : List ο), I s → M.Guarded P s as →
      M.run s as = some (t, os) → I t := by
  induction as with
  | nil =>
      intro s t os hI _ h
      simp only [run_nil, Option.some.injEq, Prod.mk.injEq] at h
      rwa [← h.1]
  | cons a as ih =>
      intro s t os hI hP h
      rcases run_cons M s t a as os h with ⟨s', o₁, o₂, hs, hrest, _⟩
      rw [Guarded, hs] at hP
      exact ih s' t o₂ (hstep s a s' o₁ hI hP.1 hs) hP.2 hrest

end Machine

end ShredStream
