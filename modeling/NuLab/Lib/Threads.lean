import Mathlib.Algebra.BigOperators.Fin
import Mathlib.Algebra.Order.BigOperators.Group.Finset
import NuLab.Lib.Run

/-! # Threads over a shared store

A step of one thread reads and writes the shared store and its own locals.  The
schedule names the thread of each step, with what the environment decides in
it.  The rules below take a step of a single thread and give what holds in every
schedule: what a thread knows may rely on the guarantee that all steps give
about the store, and a fact about the store may be accounted for by a thread.
-/

namespace NuLab.Threads

open NuLab.Run

variable {ι σ τ κ : Type*} [DecidableEq ι]

structure Threaded (ι σ τ : Type*) where
  shared : σ
  locals : ι → τ

/-- A step of the thread that is named. -/
def threadsStep (step : σ → τ → κ → Option (σ × τ)) (p : Threaded ι σ τ) (input : ι × κ) :
    Option (Threaded ι σ τ) :=
  (step p.shared (p.locals input.1) input.2).map fun after =>
    { shared := after.1, locals := Function.update p.locals input.1 after.2 }

variable {step : σ → τ → κ → Option (σ × τ)} {p final : Threaded ι σ τ} {schedule : List (ι × κ)}

theorem threadsStep_eq_some {after : Threaded ι σ τ} {i : ι} {k : κ}
    (stepped : threadsStep step p (i, k) = some after) :
    ∃ shared locals, step p.shared (p.locals i) k = some (shared, locals) ∧
      after = { shared := shared, locals := Function.update p.locals i locals } := by
  obtain ⟨⟨shared, locals⟩, ran, same⟩ := Option.map_eq_some_iff.mp stepped
  exact ⟨shared, locals, ran, same.symm⟩

/-- A step keeps what each thread knows, if it does so for its own thread, and its guarantee is
enough for all others. -/
theorem threadsStep_knows (knows : ι → σ → τ → Prop) (guarantee : σ → σ → Prop)
    (own : ∀ i s t k s' t', knows i s t → step s t k = some (s', t') →
      guarantee s s' ∧ knows i s' t')
    (stable : ∀ i s s' t, knows i s t → guarantee s s' → knows i s' t) (p : Threaded ι σ τ)
    (input : ι × κ) (after : Threaded ι σ τ) (holds : ∀ i, knows i p.shared (p.locals i))
    (stepped : threadsStep step p input = some after) :
    ∀ i, knows i after.shared (after.locals i) := by
  obtain ⟨i, k⟩ := input
  obtain ⟨shared, locals, ran, rfl⟩ := threadsStep_eq_some stepped
  obtain ⟨guaranteed, kept⟩ := own i _ _ _ _ _ (holds i) ran
  intro j
  -- its own thread is kept by the step, the others by its guarantee
  by_cases same : j = i
  · subst same
    simpa using kept
  · simpa [same] using stable j _ _ _ (holds j) guaranteed

/-- A fact about the store that only the step of a thread can bring about, which
then accounts for it. -/
theorem run_accounted (fact : σ → Prop) (accounts : τ → Prop)
    (brings : ∀ s t k s' t', step s t k = some (s', t') → fact s' → fact s ∨ accounts t')
    (keeps : ∀ s t k s' t', step s t k = some (s', t') → accounts t → accounts t')
    (ran : run (threadsStep step) id p schedule = some final)
    (start : fact p.shared → ∃ i, accounts (p.locals i)) :
    fact final.shared → ∃ i, accounts (final.locals i) := by
  refine run_invariant (fun p => fact p.shared → ∃ i, accounts (p.locals i)) ?_ ran start
  rintro p ⟨i, k⟩ after holds stepped now
  obtain ⟨shared, locals, ran, rfl⟩ := threadsStep_eq_some stepped
  cases brings _ _ _ _ _ ran now with
  | inr accounted => exact ⟨i, by simpa using accounted⟩
  | inl before =>
    obtain ⟨j, accounted⟩ := holds before
    by_cases same : j = i
    · subst same
      exact ⟨j, by simpa using keeps _ _ _ _ _ ran accounted⟩
    · exact ⟨j, by simpa [same] using accounted⟩

variable [Fintype ι]

/-- Where every step of a thread makes its measure smaller, so does every step for
the sum of the measures. -/
theorem threadsStep_sum_lt (measure : τ → Nat)
    (decreases : ∀ s t k s' t', step s t k = some (s', t') → measure t' < measure t) {input : ι × κ}
    {after : Threaded ι σ τ} (stepped : threadsStep step p input = some after) :
    ∑ i, measure (after.locals i) < ∑ i, measure (p.locals i) := by
  obtain ⟨i, k⟩ := input
  obtain ⟨shared, locals, ran, rfl⟩ := threadsStep_eq_some stepped
  have less := decreases _ _ _ _ _ ran
  refine Finset.sum_lt_sum (fun j _ => ?_) ⟨i, Finset.mem_univ i, ?_⟩
  · by_cases same : j = i
    · subst same
      simpa using Nat.le_of_lt less
    · simp [same]
  · simpa using less

end NuLab.Threads
