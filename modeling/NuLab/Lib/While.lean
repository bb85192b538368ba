import Mathlib.Logic.Basic

/-! # While loops

`whileLoop guard body fuel s` is `while (guard) body` from the state `s`, given up after
`fuel` tests of the guard.  `Ends run result` says that from some fuel on the run is not
given up.  A count of the rounds that are left shows that a loop ends; an invariant
under which the guard holds shows that it does not.
-/

namespace NuLab.While

section

variable {ρ τ : Type*}

def Ends (run : Nat → Option ρ) (result : ρ) : Prop :=
  ∃ rounds, ∀ fuel, rounds < fuel → run fuel = some result

theorem Ends.of_all {run : Nat → Option ρ} {result : ρ} (always : ∀ fuel, run fuel = some result) :
    Ends run result :=
  ⟨0, fun fuel _ => always fuel⟩

theorem Ends.some_run {run : Nat → Option ρ} {result : ρ} (ends : Ends run result) :
    ∃ fuel, run fuel = some result := by
  obtain ⟨rounds, done⟩ := ends
  exact ⟨rounds + 1, done _ (Nat.lt_succ_self rounds)⟩

theorem Ends.map {run : Nat → Option ρ} {result : ρ} (ends : Ends run result) (f : ρ → τ) :
    Ends (fun fuel => (run fuel).map f) (f result) := by
  obtain ⟨rounds, done⟩ := ends
  refine ⟨rounds, fun fuel enough => ?_⟩
  simp only [done fuel enough, Option.map_some]

/-- One run behind another, with the same fuel. -/
theorem Ends.bind {run : Nat → Option ρ} {next : ρ → Nat → Option τ} {result : ρ} {last : τ}
    (ends : Ends run result) (ends' : Ends (next result) last) :
    Ends (fun fuel => (run fuel).bind fun result => next result fuel) last := by
  obtain ⟨rounds, done⟩ := ends
  obtain ⟨rounds', done'⟩ := ends'
  refine ⟨max rounds rounds', fun fuel enough => ?_⟩
  simp only [done fuel (by omega), Option.bind_some]
  exact done' fuel (by omega)

end

variable {σ : Type*}

def whileLoop (guard : σ → Bool) (body : σ → σ) : Nat → σ → Option σ
  | 0, _ => none
  | fuel + 1, s => if guard s then whileLoop guard body fuel (body s) else some s

variable {guard : σ → Bool} {body : σ → σ}

/-- `invariant left s` says what holds of a state with `left` rounds to go. -/
theorem whileLoop_counted (invariant : Nat → σ → Prop) (exit : ∀ s, invariant 0 s → guard s = false)
    (round : ∀ left s, invariant (left + 1) s → guard s = true ∧ invariant left (body s))
    {left : Nat} {s : σ} (holds : invariant left s) :
    ∃ t, Ends (fun fuel => whileLoop guard body fuel s) t ∧ invariant 0 t := by
  induction left generalizing s with
  | zero =>
    refine ⟨s, ⟨0, fun fuel some => ?_⟩, holds⟩
    cases fuel with
    | zero => exact absurd some (Nat.lt_irrefl 0)
    | succ fuel => simp only [whileLoop, exit s holds, if_neg Bool.false_ne_true]
  | succ left inductionHypothesis =>
    obtain ⟨goesOn, next⟩ := round left s holds
    obtain ⟨t, ⟨rounds, done⟩, final⟩ := inductionHypothesis next
    refine ⟨t, ⟨rounds + 1, fun fuel enough => ?_⟩, final⟩
    cases fuel with
    | zero => exact absurd enough (Nat.not_lt_zero _)
    | succ fuel =>
      simp only [whileLoop, goesOn, if_true]
      exact done fuel (Nat.lt_of_succ_lt_succ enough)

theorem whileLoop_endless (invariant : σ → Prop)
    (round : ∀ s, invariant s → guard s = true ∧ invariant (body s)) {s : σ} (holds : invariant s)
    (fuel : Nat) : whileLoop guard body fuel s = none := by
  induction fuel generalizing s with
  | zero => rfl
  | succ fuel inductionHypothesis =>
    obtain ⟨goesOn, next⟩ := round s holds
    rw [whileLoop, goesOn, if_pos rfl, inductionHypothesis next]

end NuLab.While
