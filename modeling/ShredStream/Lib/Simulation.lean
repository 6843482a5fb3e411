import ShredStream.Lib.Machine

/-!
# Simulations

A machine simulates another one when every step it takes can be matched by
steps of the other, showing the same. What is shown is compared after
translation: an output of the concrete machine stands for some outputs of the
abstract one, or for none.

Steps are matched one at a time, from states that are related, and lead to
states that are related again. By `Simulates.run` whole runs are then matched,
and whatever is true of everything the abstract machine can show is true of
what the concrete one shows.

## Main definitions

* `Simulates`: Every step is matched.

## Theorems

* `Simulates.run`: Every run is matched.
* `Simulates.shows`: What the abstract machine guarantees holds of the concrete
  one.
-/

namespace ShredStream

namespace Machine

variable {σ α ο τ β ω : Type}

/-- Every step of `C` from a related state is matched by a run of `A` that
    shows the same and ends related. -/
def Simulates (C : Machine σ α ο) (A : Machine τ β ω) (see : ο → List ω) (R : σ → τ → Prop) :
    Prop :=
  ∀ s t a s' os, R s t → C.step s a = some (s', os) →
    ∃ bs t', A.run t bs = some (t', os.flatMap see) ∧ R s' t'

/-- Every run from a related state is matched. -/
theorem Simulates.run {C : Machine σ α ο} {A : Machine τ β ω} {see : ο → List ω}
    {R : σ → τ → Prop} (hsim : Simulates C A see R) (inputs : List α) :
    ∀ (s s' : σ) (t : τ) (os : List ο), R s t → C.run s inputs = some (s', os) →
      ∃ bs t', A.run t bs = some (t', os.flatMap see) ∧ R s' t' := by
  induction inputs with
  | nil =>
      intro s s' t os hR h
      simp only [run_nil, Option.some.injEq, Prod.mk.injEq] at h
      rcases h with ⟨rfl, rfl⟩
      exact ⟨[], t, rfl, hR⟩
  | cons a inputs ih =>
      intro s s' t os hR h
      rcases run_cons C s s' a inputs os h with ⟨m, os₁, os₂, hstep, hrest, rfl⟩
      rcases hsim s t a m os₁ hR hstep with ⟨bs₁, u, hrun₁, hmid⟩
      rcases ih m s' u os₂ hmid hrest with ⟨bs₂, t', hrun₂, hend⟩
      refine ⟨bs₁ ++ bs₂, t', ?_, hend⟩
      rw [List.flatMap_append]
      exact (run_append A t t' bs₁ bs₂ _).mpr ⟨u, _, _, hrun₁, hrun₂, rfl⟩

/-- What holds of everything the abstract machine shows holds of what the
    concrete one shows. -/
theorem Simulates.shows {C : Machine σ α ο} {A : Machine τ β ω} {see : ο → List ω}
    {R : σ → τ → Prop} (hsim : Simulates C A see R) (P : List ω → Prop) (s s' : σ) (t : τ)
    (hP : ∀ bs t' ws, A.run t bs = some (t', ws) → P ws) (hR : R s t) (inputs : List α)
    (os : List ο) (h : C.run s inputs = some (s', os)) : P (os.flatMap see) := by
  rcases hsim.run inputs s s' t os hR h with ⟨bs, t', hrun, _⟩
  exact hP bs t' _ hrun

end Machine

end ShredStream
