import Mathlib.Data.List.Basic

/-! # Runs of a partial step function

`step s i` is `none` where the program has no defined behaviour.  `AllSteps`
says that every step of a run is defined and does what `good` asks for; `Along`
says that every step meets a condition on the state before it and on its input.
The rules below reduce both to a single step from a state that satisfies an
invariant.
-/

namespace NuLab.Run

variable {σ ι ρ : Type*} (step : σ → ι → Option ρ) (next : ρ → σ)

def run : σ → List ι → Option σ
  | s, [] => some s
  | s, i :: inputs => (step s i).bind fun result => run (next result) inputs

def AllSteps (good : σ → ι → ρ → Prop) : σ → List ι → Prop
  | _, [] => True
  | s, i :: inputs =>
    ∃ result, step s i = some result ∧ good s i result ∧ AllSteps good (next result) inputs

def Along (condition : σ → ι → Prop) : σ → List ι → Prop
  | _, [] => True
  | s, i :: inputs =>
    condition s i ∧ ∀ result, step s i = some result → Along condition (next result) inputs

variable {step next}

/-- What every step preserves holds at the end of a run. -/
theorem run_invariant (invariant : σ → Prop)
    (preserves : ∀ s i result, invariant s → step s i = some result → invariant (next result))
    {s final : σ} {inputs : List ι} (ran : run step next s inputs = some final)
    (holds : invariant s) : invariant final := by
  induction inputs generalizing s with
  | nil =>
    obtain rfl : s = final := Option.some.inj ran
    exact holds
  | cons i inputs inductionHypothesis =>
    obtain ⟨result, stepped, rest⟩ := Option.bind_eq_some_iff.mp ran
    exact inductionHypothesis rest (preserves s i result holds stepped)

/-- Where every step makes a measure smaller, a run is no longer than the measure is large. -/
theorem run_length_le (invariant : σ → Prop) (measure : σ → Nat)
    (decreases : ∀ s i result, invariant s → step s i = some result →
      invariant (next result) ∧ measure (next result) < measure s)
    {s final : σ} {inputs : List ι} (ran : run step next s inputs = some final)
    (holds : invariant s) : inputs.length + measure final ≤ measure s := by
  induction inputs generalizing s with
  | nil =>
    obtain rfl : s = final := Option.some.inj ran
    exact Nat.le_of_eq (Nat.zero_add _)
  | cons i inputs inductionHypothesis =>
    obtain ⟨result, stepped, rest⟩ := Option.bind_eq_some_iff.mp ran
    obtain ⟨kept, less⟩ := decreases s i result holds stepped
    have later := inductionHypothesis rest kept
    rw [List.length_cons]
    omega

/-- Where every step makes a measure smaller, and there is one until the end,
some run gets to the end. -/
theorem exists_run_to_end (invariant ended : σ → Prop) (measure : σ → Nat)
    (decreases : ∀ s i result, invariant s → step s i = some result →
      invariant (next result) ∧ measure (next result) < measure s)
    (progress : ∀ s, invariant s → ¬ ended s → ∃ i result, step s i = some result) (s : σ)
    (holds : invariant s) : ∃ inputs final, run step next s inputs = some final ∧ ended final := by
  by_cases done : ended s
  · exact ⟨[], s, rfl, done⟩
  · obtain ⟨i, result, stepped⟩ := progress s holds done
    obtain ⟨kept, less⟩ := decreases s i result holds stepped
    obtain ⟨inputs, final, rest, ends⟩ :=
      exists_run_to_end invariant ended measure decreases progress _ kept
    exact ⟨i :: inputs, final, by rw [run, stepped, Option.bind_some, rest], ends⟩
termination_by measure s

/-- Where no run is longer than a bound, some run ends in a state without a step. -/
theorem exists_stuck_run (bound : Nat) (s : σ)
    (bounded : ∀ inputs final, run step next s inputs = some final → inputs.length ≤ bound) :
    ∃ inputs final, run step next s inputs = some final ∧ ∀ i, step final i = none := by
  by_cases stuck : ∀ i, step s i = none
  · exact ⟨[], s, rfl, stuck⟩
  · obtain ⟨i, moves⟩ := not_forall.mp stuck
    obtain ⟨result, stepped⟩ := Option.ne_none_iff_exists'.mp moves
    have onward : ∀ inputs, run step next s (i :: inputs) = run step next (next result) inputs := by
      intro inputs
      rw [run, stepped, Option.bind_some]
    cases bound with
    | zero => cases bounded [i] (next result) (onward [])
    | succ bound =>
      obtain ⟨inputs, final, ran, ends⟩ := exists_stuck_run bound (next result)
        fun inputs final ran =>
          Nat.le_of_succ_le_succ (bounded (i :: inputs) final ((onward inputs).trans ran))
      exact ⟨i :: inputs, final, (onward inputs).trans ran, ends⟩

/-- The step rule: under the condition a step from the invariant is good and keeps the invariant. -/
theorem allSteps_of_along {condition : σ → ι → Prop} {invariant : σ → Prop}
    {good : σ → ι → ρ → Prop} (stepRule : ∀ s i, invariant s → condition s i →
      ∃ result, step s i = some result ∧ good s i result ∧ invariant (next result))
    (s : σ) (inputs : List ι) (holds : invariant s) (along : Along step next condition s inputs) :
    AllSteps step next good s inputs := by
  induction inputs generalizing s with
  | nil => trivial
  | cons i inputs inductionHypothesis =>
    obtain ⟨meets, rest⟩ := along
    obtain ⟨result, run, isGood, kept⟩ := stepRule s i holds meets
    exact ⟨result, run, isGood, inductionHypothesis _ kept (rest result run)⟩

/-- The step rule without a condition. -/
theorem allSteps_of_invariant {good : σ → ι → ρ → Prop} (invariant : σ → Prop)
    (stepRule : ∀ s i, invariant s → ∃ result, step s i = some result ∧ good s i result ∧
      invariant (next result))
    (s : σ) (inputs : List ι) (holds : invariant s) : AllSteps step next good s inputs := by
  induction inputs generalizing s with
  | nil => trivial
  | cons i inputs inductionHypothesis =>
    obtain ⟨result, run, isGood, kept⟩ := stepRule s i holds
    exact ⟨result, run, isGood, inductionHypothesis _ kept⟩

/-- With the converse for one step, the condition is exactly what a good run needs. -/
theorem along_iff_allSteps {condition : σ → ι → Prop} {invariant : σ → Prop}
    {good : σ → ι → ρ → Prop} (stepRule : ∀ s i, invariant s → condition s i →
      ∃ result, step s i = some result ∧ good s i result ∧ invariant (next result))
    (necessary : ∀ s i result, invariant s → step s i = some result →
      good s i result → condition s i)
    (s : σ) (inputs : List ι) (holds : invariant s) :
    AllSteps step next good s inputs ↔ Along step next condition s inputs := by
  refine ⟨fun good => ?_, allSteps_of_along stepRule s inputs holds⟩
  induction inputs generalizing s with
  | nil => trivial
  | cons i inputs inductionHypothesis =>
    obtain ⟨result, run, isGood, rest⟩ := good
    have meets := necessary s i result holds run isGood
    -- the step rule applies now, and its result is the one of this run
    refine ⟨meets, fun other sameRun => ?_⟩
    rw [run, Option.some.injEq] at sameRun
    subst sameRun
    obtain ⟨_, sameRun, -, kept⟩ := stepRule s i holds meets
    rw [run, Option.some.injEq] at sameRun
    subst sameRun
    exact inductionHypothesis _ kept rest

theorem AllSteps.append {good : σ → ι → ρ → Prop} (s : σ) (front back : List ι)
    (all : AllSteps step next good s (front ++ back)) :
    ∃ middle, Run.run step next s front = some middle ∧ AllSteps step next good middle back := by
  induction front generalizing s with
  | nil => exact ⟨s, rfl, all⟩
  | cons i front inductionHypothesis =>
    obtain ⟨result, run, -, rest⟩ := all
    obtain ⟨middle, tailRun, tail⟩ := inductionHypothesis (next result) rest
    exact ⟨middle, by rw [Run.run, run, Option.bind_some, tailRun], tail⟩

/-- A good run ends in a state, and what good steps preserve holds there. -/
theorem AllSteps.run {good : σ → ι → ρ → Prop} (property : σ → Prop) (s : σ) (inputs : List ι)
    (all : AllSteps step next good s inputs) (start : property s)
    (kept : ∀ s i result, property s → i ∈ inputs → good s i result → property (next result)) :
    ∃ final, run step next s inputs = some final ∧ property final := by
  induction inputs generalizing s with
  | nil => exact ⟨s, rfl, start⟩
  | cons i inputs inductionHypothesis =>
    obtain ⟨result, run, isGood, rest⟩ := all
    obtain ⟨final, tailRun, holds⟩ := inductionHypothesis (next result) rest
      (kept s i result start List.mem_cons_self isGood)
      (fun s j result holds member => kept s j result holds (List.mem_cons_of_mem i member))
    exact ⟨final, by rw [Run.run, run, Option.bind_some, tailRun], holds⟩

end NuLab.Run
