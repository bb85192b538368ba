import Mathlib.Algebra.BigOperators.Fin
import NuLab.Solver.Workers

/-! # When the task pool runs dry

Every task moves the cursor of the pool forward, so that below the largest 32-bit
timestamp the places up to the limit are used up.  At that limit the timestamp wraps
around to 0 behind its last chunk, and the pool starts over.
-/

namespace NuLab.Solver

open NuLab.Run

/-- The pool after `count` calls, answered or not. -/
def poolAfter : Nat → FindNonceTaskPool → FindNonceTaskPool
  | 0, pool => pool
  | count + 1, pool =>
    match findNonceNextTask pool with
    | some (_, after) => poolAfter count after
    | none => poolAfter count pool

/-- From some call on there are no tasks, and however many workers there are, they take a bounded
number of steps together; a worker whose loop has not ended can take one. -/
structure RunsDry (pool : FindNonceTaskPool) : Prop where
  dry : ∃ count, ∀ later, count ≤ later → findNonceNextTask (poolAfter later pool) = none
  ends : ∀ count : Nat, ∃ bound, ∀ (schedule : List (Fin count)) (final : Process count),
    run workerStep id (Process.start pool) schedule = some final → schedule.length ≤ bound ∧
      ∀ wid, final.reported = none → final.workers wid ≠ .ended →
        ∃ after, workerStep final wid = some after

/-! ## Calls -/

/-- The places that are left to hand out. -/
def FindNonceTaskPool.left (pool : FindNonceTaskPool) : Nat :=
  (pool.timestampMax.toNat + 1) * 2 ^ 32 - pool.cursor

theorem Handed.left_lt {pool after : FindNonceTaskPool} {task : FindNonceTask}
    (handed : Handed pool task after) (active : pool.timestamp ≤ pool.timestampMax)
    (below : pool.timestampMax < 0xFFFFFFFF) :
    after.left < pool.left := by
  have sameMax : after.timestampMax = pool.timestampMax := by rw [handed.same]
  have moved := handed.behind (UInt32.lt_of_le_of_lt active below)
  have more := Nat.lt_of_le_of_lt (Nat.le_of_eq handed.first.symm)
    ((mem_pairs_iff task _ _).mp ⟨rfl, Nat.le_refl _, handed.nonempty⟩).2
  have inside : pool.cursor < (pool.timestampMax.toNat + 1) * 2 ^ 32 := by
    have nonce := pool.nonce.toNat_lt
    have order := UInt32.le_iff_toNat_le.mp active
    rw [FindNonceTaskPool.cursor, place]
    omega
  rw [FindNonceTaskPool.left, FindNonceTaskPool.left, sameMax, ← moved]
  have advanced : pool.cursor < task.behind := more
  omega

theorem poolAfter_done {pool : FindNonceTaskPool} (done : findNonceNextTask pool = none)
    (count : Nat) : poolAfter count pool = pool := by
  induction count with
  | zero => rfl
  | succ count inductionHypothesis =>
    rw [poolAfter, done]
    exact inductionHypothesis

theorem poolAfter_dry {pool : FindNonceTaskPool} (below : pool.timestampMax < 0xFFFFFFFF)
    {later : Nat} (enough : pool.left ≤ later) :
    findNonceNextTask (poolAfter later pool) = none := by
  induction later generalizing pool with
  | zero =>
    -- no place is left, so that the cursor is behind the last timestamp
    rw [poolAfter, findNonceNextTask_done, UInt32.lt_iff_toNat_lt]
    have nonce := pool.nonce.toNat_lt
    rw [FindNonceTaskPool.left, FindNonceTaskPool.cursor, place] at enough
    omega
  | succ later inductionHypothesis =>
    by_cases done : pool.timestampMax < pool.timestamp
    · rw [poolAfter_done ((findNonceNextTask_done pool).mpr done)]
      exact (findNonceNextTask_done pool).mpr done
    · have active := UInt32.not_lt.mp done
      obtain ⟨task, after, call, handed⟩ := findNonceNextTask_handed pool active
      have fewer := handed.left_lt active below
      rw [poolAfter, call]
      exact inductionHypothesis (by rw [handed.same]; exact below) (by omega)

/-- No timestamp is behind the largest one. -/
theorem poolAfter_wraps {pool : FindNonceTaskPool} (last : pool.timestampMax = 0xFFFFFFFF)
    (count : Nat) : findNonceNextTask (poolAfter count pool) ≠ none := by
  induction count generalizing pool with
  | zero =>
    rw [poolAfter, ne_eq, findNonceNextTask_done, last, UInt32.lt_iff_toNat_lt]
    have bound := pool.timestamp.toNat_lt
    simp only [UInt32.reduceToNat]
    omega
  | succ count inductionHypothesis =>
    rw [poolAfter]
    cases call : findNonceNextTask pool with
    | none => exact inductionHypothesis last
    | some answer =>
      obtain ⟨task, after⟩ := answer
      have active : pool.timestamp ≤ pool.timestampMax := by
        by_contra late
        rw [(findNonceNextTask_done pool).mpr (UInt32.not_le.mp late)] at call
        cases call
      obtain ⟨_, _, sameCall, handed⟩ := findNonceNextTask_handed pool active
      rw [call] at sameCall
      cases sameCall
      apply inductionHypothesis
      rw [handed.same]
      exact last

/-! ## Workers -/

variable {count : Nat}

/-- How many steps a worker has at most before it gets its next task. -/
def WorkerState.weight : WorkerState → Nat
  | .getting => 1
  | .searching _ => 2
  | .putting _ => 1
  | .ended => 0

/-- Bounds the steps of all workers together. -/
def Process.potential (p : Process count) : Nat :=
  2 * p.pool.left + (∑ wid, (p.workers wid).weight + if p.reported = none then 1 else 0)

theorem weight_setWorker (p : Process count) (wid : Fin count) (state : WorkerState) :
    ∑ other, ((p.setWorker wid state).workers other).weight + (p.workers wid).weight =
      ∑ other, (p.workers other).weight + state.weight := by
  rw [← Finset.add_sum_erase Finset.univ _ (Finset.mem_univ wid),
    ← Finset.add_sum_erase Finset.univ (fun other => (p.workers other).weight)
      (Finset.mem_univ wid), setWorker_self]
  have others : ∑ other ∈ Finset.univ.erase wid, ((p.setWorker wid state).workers other).weight =
      ∑ other ∈ Finset.univ.erase wid, (p.workers other).weight := by
    apply Finset.sum_congr rfl
    intro other member
    rw [setWorker_other p state (Finset.ne_of_mem_erase member)]
  rw [others]
  omega

/-- A worker whose next state weighs less makes the potential smaller. -/
theorem potential_setWorker {p : Process count} {wid : Fin count} {state : WorkerState}
    (lighter : state.weight < (p.workers wid).weight) :
    (p.setWorker wid state).potential < p.potential := by
  have sums := weight_setWorker p wid state
  have samePool : (p.setWorker wid state).pool = p.pool := rfl
  have sameReport : (p.setWorker wid state).reported = p.reported := rfl
  rw [Process.potential, Process.potential, samePool, sameReport]
  omega

theorem potential_step {p after : Process count} {wid : Fin count}
    (below : p.pool.timestampMax < 0xFFFFFFFF) (step : workerStep p wid = some after) :
    after.pool.timestampMax < 0xFFFFFFFF ∧ after.potential < p.potential := by
  obtain ⟨running, ⟨getting, -, rfl⟩ | ⟨task, pool, getting, active, handed, rfl⟩ |
    ⟨task, m, searching, -, -, -, rfl⟩ |
    ⟨task, searching, -, rfl⟩ | ⟨task, putting, rfl⟩⟩ := workerStep_cases step
  · exact ⟨below, potential_setWorker (by rw [getting]; exact Nat.zero_lt_one)⟩
  · -- the search weighs one more, and at least one place less is left
    have fewer := handed.left_lt active below
    have sums := weight_setWorker { p with pool := pool } wid (.searching task)
    have sameMax : pool.timestampMax = p.pool.timestampMax := by rw [handed.same]
    refine ⟨lt_of_eq_of_lt sameMax below, ?_⟩
    have samePool : ({ p with pool := pool }.setWorker wid (.searching task)).pool = pool := rfl
    have sameReport : ({ p with pool := pool }.setWorker wid (.searching task)).reported =
        p.reported := rfl
    rw [Process.potential, Process.potential, samePool, sameReport]
    simp only [getting, WorkerState.weight] at sums ⊢
    omega
  · exact ⟨below, potential_setWorker (by rw [searching]; exact Nat.one_lt_two)⟩
  · exact ⟨below, potential_setWorker (by rw [searching]; exact Nat.one_lt_two)⟩
  · refine ⟨below, ?_⟩
    rw [Process.potential, Process.potential, if_pos running, if_neg (Option.some_ne_none _)]
    exact Nat.add_lt_add_left (Nat.add_lt_add_left Nat.zero_lt_one _) _

/-- The pool runs dry, and with it the loops of all workers end, exactly below
the largest timestamp. -/
theorem findNonceNextTask_runsDry_iff (pool : FindNonceTaskPool) :
    RunsDry pool ↔ pool.timestampMax < 0xFFFFFFFF := by
  constructor
  · intro runsDry
    obtain ⟨count, dry⟩ := runsDry.dry
    by_contra late
    apply poolAfter_wraps _ count (dry count (Nat.le_refl count))
    have bound := pool.timestampMax.toNat_lt
    rw [UInt32.lt_iff_toNat_lt] at late
    apply UInt32.toNat_inj.mp
    simp only [UInt32.reduceToNat] at late ⊢
    omega
  · intro below
    refine ⟨⟨pool.left, fun later enough => poolAfter_dry below enough⟩, fun count => ?_⟩
    refine ⟨(Process.start pool : Process count).potential, fun schedule final ran =>
      ⟨?_, workerStep_enabled final⟩⟩
    have length := run_length_le (fun p : Process count => p.pool.timestampMax < 0xFFFFFFFF)
      Process.potential
      (fun p wid after below step => potential_step below step) ran below
    exact Nat.le_trans (Nat.le_add_right _ _) length

/-- The pool that `main` would start for a header with the largest timestamp. -/
def lastPool : FindNonceTaskPool :=
  ⟨⟨1, Vector.replicate 32 0, Vector.replicate 32 0, 0xFFFFFFFF, 0, 0⟩, Vector.replicate 32 0,
    0xFFFFFFFF, 0xFFFFFFFF, 0, 20, by decide⟩

/-- Its timestamp starts over at 0. -/
theorem findNonceNextTask_startsOver :
    ¬ ∀ pool : FindNonceTaskPool, pool.timestamp ≤ pool.timestampMax → RunsDry pool := by
  intro always
  obtain ⟨count, dry⟩ := (always lastPool (UInt32.le_refl _)).dry
  exact poolAfter_wraps rfl count (dry count (Nat.le_refl count))

end NuLab.Solver
