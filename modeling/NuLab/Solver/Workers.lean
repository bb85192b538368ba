import NuLab.Solver.FindNonce
import NuLab.Lib.Run

/-! # The workers of `main_block_solver.c`

All workers draw from one pool.  A call of `worker_pool_get_task` is one step,
since it holds the pool's mutex; a search touches the worker's own task only and
is one step, too; a report prints the header and ends the process.  Which
worker steps next is arbitrary.
-/

namespace NuLab.Solver

open NuLab.Run

/-- Where a worker is in the loop of `worker_proc`. -/
inductive WorkerState where
  | getting
  | searching (task : FindNonceTask)
  | putting (task : FindNonceTask)
  | ended
deriving DecidableEq

/-- The solver with `count` workers; `reported` is set by `exit(0)` in `worker_pool_put_task`. -/
structure Process (count : Nat) where
  pool : FindNonceTaskPool
  workers : Fin count → WorkerState
  reported : Option BcBlockHeader

variable {count : Nat}

def Process.setWorker (p : Process count) (wid : Fin count) (state : WorkerState) : Process count :=
  { p with workers := fun other => if other = wid then state else p.workers other }

/-- One step of `worker_proc` in worker `wid`, and `none` when it has none to take. -/
def workerStep (p : Process count) (wid : Fin count) : Option (Process count) :=
  if p.reported.isSome then none
  else
    match p.workers wid with
    | .getting =>
      match findNonceNextTask p.pool with
      -- the loop of the worker ends, but the process does not
      | none => some (p.setWorker wid .ended)
      | some (task, pool) => some ({ p with pool := pool }.setWorker wid (.searching task))
    | .searching task =>
      match findNonce task with
      | none => none
      | some (found, task) => some (p.setWorker wid (if found ≠ 0 then .putting task else .getting))
    | .putting task => some { p with reported := some task.header }
    | .ended => none

def Process.start (pool : FindNonceTaskPool) : Process count := ⟨pool, fun _ => .getting, none⟩

/-! ## The invariant -/

def headerAt (pool : FindNonceTaskPool) (t n : UInt32) : BcBlockHeader :=
  { pool.header with timestamp := t, nonce := n }

/-- A header a worker may report: only timestamp and nonce are changed, and it solves the block. -/
def Reportable (start : FindNonceTaskPool) (header : BcBlockHeader) : Prop :=
  ∃ t n, start.timestamp ≤ t ∧ t ≤ start.timestampMax ∧ header = headerAt start t n ∧
    Solves start.target header

/-- A task that the pool hands out. -/
structure TaskOf (start : FindNonceTaskPool) (task : FindNonceTask) : Prop where
  target : task.target = start.target
  low : start.timestamp ≤ task.header.timestamp
  high : task.header.timestamp ≤ start.timestampMax
  header : ∀ n, withNonce task.header n = headerAt start task.header.timestamp n

structure Sound (start : FindNonceTaskPool) (p : Process count) : Prop where
  same : p.pool = { start with timestamp := p.pool.timestamp, nonce := p.pool.nonce }
  started : start.timestamp ≤ p.pool.timestamp
  searching : ∀ wid task, p.workers wid = .searching task → TaskOf start task
  putting : ∀ wid task, p.workers wid = .putting task → Reportable start task.header
  reported : ∀ header, p.reported = some header → Reportable start header

/-- No solving pair gets lost: once handed out it is searched for, or about to be reported. -/
structure Complete (start : FindNonceTaskPool) (p : Process count) : Prop where
  ended : ∀ wid, p.workers wid = .ended → start.timestampMax < p.pool.timestamp
  covered : p.reported = none → ∀ t n, start.timestamp ≤ t → place t n < p.pool.cursor →
    Solves start.target (headerAt start t n) →
    ∃ wid task, p.workers wid = .searching task ∧ (t, n) ∈ task.pairs ∨
      p.workers wid = .putting task

theorem Process.start_sound (pool : FindNonceTaskPool) :
    Sound pool (Process.start pool : Process count) :=
  ⟨rfl, UInt32.le_refl _, fun _ _ here => (by cases here), fun _ _ here => (by cases here),
    fun _ here => (by cases here)⟩

theorem Process.start_complete (pool : FindNonceTaskPool) (fresh : pool.nonce = 0) :
    Complete pool (Process.start pool : Process count) := by
  refine ⟨fun _ here => (by cases here), fun _ t n started before _ => ?_⟩
  have behind := (place_zero_le_iff pool.timestamp t n).mpr started
  simp only [Process.start, FindNonceTaskPool.cursor, fresh] at before
  omega

/-! ## Steps -/

theorem setWorker_self (p : Process count) (wid : Fin count) (state : WorkerState) :
    (p.setWorker wid state).workers wid = state := if_pos rfl

theorem setWorker_other (p : Process count) {wid other : Fin count} (state : WorkerState)
    (different : other ≠ wid) : (p.setWorker wid state).workers other = p.workers other :=
  if_neg different

/-- What a step does, by the place of its worker. -/
theorem workerStep_cases {p after : Process count} {wid : Fin count}
    (step : workerStep p wid = some after) :
    p.reported = none ∧
    ((p.workers wid = .getting ∧ p.pool.timestampMax < p.pool.timestamp ∧
      after = p.setWorker wid .ended) ∨
    (∃ task pool, p.workers wid = .getting ∧ p.pool.timestamp ≤ p.pool.timestampMax ∧
      Handed p.pool task pool ∧
      after = { p with pool := pool }.setWorker wid (.searching task)) ∨
    (∃ task m, p.workers wid = .searching task ∧ task.nonceMin ≤ m ∧ m ≤ task.nonceMax ∧
      Solves task.target (withNonce task.header m) ∧
      after = p.setWorker wid (.putting { task with header := withNonce task.header m })) ∨
    (∃ task, p.workers wid = .searching task ∧
      (∀ n, task.nonceMin ≤ n → n ≤ task.nonceMax →
        ¬ Solves task.target (withNonce task.header n)) ∧
      after = p.setWorker wid .getting) ∨
    (∃ task, p.workers wid = .putting task ∧ after = { p with reported := some task.header })) := by
  unfold workerStep at step
  split at step
  · cases step
  next running =>
    refine ⟨by simpa using running, ?_⟩
    cases state : p.workers wid with
    | getting =>
      rw [state] at step
      dsimp only at step
      by_cases done : p.pool.timestampMax < p.pool.timestamp
      · rw [(findNonceNextTask_done p.pool).mpr done] at step
        exact Or.inl ⟨rfl, done, (Option.some.inj step).symm⟩
      · obtain ⟨task, pool, call, handed⟩ := findNonceNextTask_handed p.pool (UInt32.not_lt.mp done)
        rw [call] at step
        exact Or.inr
          (Or.inl ⟨task, pool, rfl, UInt32.not_lt.mp done, handed, (Option.some.inj step).symm⟩)
    | searching task =>
      obtain ⟨result, search, searched⟩ := findNonce_spec task
      rw [state] at step
      dsimp only at step
      rw [search] at step
      cases searched with
      | found m low high solves _ =>
        exact Or.inr (Or.inr (Or.inl ⟨task, m, rfl, UInt32.le_iff_toNat_le.mpr low, high, solves,
          (Option.some.inj step).symm⟩))
      | nothing found none =>
        exact Or.inr (Or.inr (Or.inr (Or.inl ⟨task, rfl, fun n low high =>
          none n (UInt32.le_iff_toNat_le.mp low) high, (Option.some.inj step).symm⟩)))
    | putting task =>
      rw [state] at step
      exact Or.inr (Or.inr (Or.inr (Or.inr ⟨task, rfl, (Option.some.inj step).symm⟩)))
    | ended =>
      rw [state] at step
      cases step

theorem headerAt_of_task {start : FindNonceTaskPool} {task : FindNonceTask}
    (taskOf : TaskOf start task) (t n : UInt32) (inside : (t, n) ∈ task.pairs) :
    withNonce task.header n = headerAt start t n := by
  rw [taskOf.header n, show t = task.header.timestamp from inside.1]

theorem Handed.taskOf {start pool after : FindNonceTaskPool} {task : FindNonceTask}
    (handed : Handed pool task after)
    (same : pool = { start with timestamp := pool.timestamp, nonce := pool.nonce })
    (started : start.timestamp ≤ pool.timestamp) (active : pool.timestamp ≤ pool.timestampMax) :
      TaskOf start task := by
  have sameMax : pool.timestampMax = start.timestampMax := by rw [same]
  refine ⟨by rw [handed.target, same], by rw [handed.timestamp]; exact started, ?_, fun n => ?_⟩
  · rw [handed.timestamp, ← sameMax]; exact active
  · rw [handed.header, withNonce, headerAt, show pool.header = start.header by rw [same]]

theorem setWorker_cases {p : Process count} {wid other : Fin count} {state found : WorkerState}
    (here : (p.setWorker wid state).workers other = found) :
    state = found ∨ p.workers other = found := by
  by_cases same : other = wid
  · subst same
    rw [setWorker_self] at here
    exact Or.inl here
  · rw [setWorker_other p state same] at here
    exact Or.inr here

theorem Handed.later {pool after : FindNonceTaskPool} {task : FindNonceTask}
    (handed : Handed pool task after) (below : pool.timestamp < 0xFFFFFFFF) :
    pool.timestamp ≤ after.timestamp := by
  have next := timestamp_succ below
  rw [UInt32.le_iff_toNat_le]
  obtain ⟨-, -, timestamp, -⟩ | ⟨-, -, timestamp, -⟩ := handed.advance
  · rw [timestamp, next]; exact Nat.le_succ _
  · rw [timestamp]

/-- Giving a worker another state keeps what holds of all workers, if it holds of that state. -/
theorem Sound.setWorker {start : FindNonceTaskPool} {p : Process count} (sound : Sound start p)
    (wid : Fin count) {state : WorkerState}
    (searching : ∀ task, state = .searching task → TaskOf start task)
    (putting : ∀ task, state = .putting task → Reportable start task.header) :
    Sound start (p.setWorker wid state) where
  same := sound.same
  started := sound.started
  searching other task here := by
    cases setWorker_cases here with
    | inl new => exact searching task new
    | inr old => exact sound.searching other task old
  putting other task here := by
    cases setWorker_cases here with
    | inl new => exact putting task new
    | inr old => exact sound.putting other task old
  reported := sound.reported

/-- A worker that gives up its state has to pass on the solving pairs that it held. -/
theorem Complete.setWorker {start : FindNonceTaskPool} {p : Process count}
    (complete : Complete start p) (wid : Fin count) {state : WorkerState}
    (ended : state = .ended → start.timestampMax < p.pool.timestamp)
    (passed : ∀ t n task, Solves start.target (headerAt start t n) →
      p.workers wid = .searching task ∧ (t, n) ∈ task.pairs ∨ p.workers wid = .putting task →
      ∃ next, state = .searching next ∧ (t, n) ∈ next.pairs ∨ state = .putting next) :
    Complete start (p.setWorker wid state) where
  ended other here := by
    cases setWorker_cases here with
    | inl new => exact ended new
    | inr old => exact complete.ended other old
  covered silent t n started before solves := by
    obtain ⟨other, task, here⟩ := complete.covered silent t n started before solves
    by_cases same : other = wid
    · subst same
      obtain ⟨next, held⟩ := passed t n task solves here
      refine ⟨other, next, ?_⟩
      rw [setWorker_self]
      exact held
    · refine ⟨other, task, ?_⟩
      rw [setWorker_other p state same]
      exact here

theorem Sound.step {start : FindNonceTaskPool} (below : start.timestampMax < 0xFFFFFFFF)
    {p after : Process count} {wid : Fin count} (sound : Sound start p)
    (step : workerStep p wid = some after) : Sound start after := by
  have sameMax : p.pool.timestampMax = start.timestampMax := by rw [sound.same]
  obtain ⟨running, ⟨-, -, rfl⟩ | ⟨task, pool, -, active, handed, rfl⟩ |
    ⟨task, m, searching, -, -, solves, rfl⟩ |
    ⟨task, -, -, rfl⟩ | ⟨task, putting, rfl⟩⟩ := workerStep_cases step
  · exact sound.setWorker wid (fun _ here => by cases here) (fun _ here => by cases here)
  · have activeBelow := UInt32.lt_of_le_of_lt active (by rw [sameMax]; exact below)
    have samePool : pool = { start with timestamp := pool.timestamp, nonce := pool.nonce } := by
      rw [handed.same, sound.same]
    have moved : Sound start { p with pool := pool } :=
      ⟨samePool, UInt32.le_trans sound.started (handed.later activeBelow), sound.searching,
        sound.putting, sound.reported⟩
    apply moved.setWorker wid
    · intro next here
      cases here
      exact handed.taskOf sound.same sound.started active
    · intro next here
      cases here
  · -- the search has written the nonce it found into the header of its task
    have taskOf := sound.searching wid task searching
    apply sound.setWorker wid
    · intro next here
      cases here
    · intro next here
      cases here
      exact ⟨task.header.timestamp, m, taskOf.low, taskOf.high, taskOf.header m,
        by rw [← taskOf.target]; exact solves⟩
  · exact sound.setWorker wid (fun _ here => by cases here) (fun _ here => by cases here)
  · refine ⟨sound.same, sound.started, sound.searching, sound.putting, fun header reported => ?_⟩
    obtain rfl := Option.some.inj reported
    exact sound.putting wid task putting

theorem Complete.step {start : FindNonceTaskPool} (below : start.timestampMax < 0xFFFFFFFF)
    {p after : Process count} {wid : Fin count} (sound : Sound start p)
    (complete : Complete start p) (step : workerStep p wid = some after) :
    Complete start after := by
  have sameMax : p.pool.timestampMax = start.timestampMax := by rw [sound.same]
  obtain ⟨running, ⟨getting, done, rfl⟩ | ⟨task, pool, getting, active, handed, rfl⟩ |
    ⟨task, m, searching, -, -, -, rfl⟩ | ⟨task, searching, unsolved, rfl⟩ | ⟨task, putting, rfl⟩⟩ :=
    workerStep_cases step
  · apply complete.setWorker wid
    · intro _
      rw [← sameMax]
      exact done
    · intro t n task _ here
      simp [getting] at here
  · have activeBelow := UInt32.lt_of_le_of_lt active (by rw [sameMax]; exact below)
    refine ⟨fun other here => ?_, fun _ t n started before solves => ?_⟩
    · have old := (setWorker_cases here).resolve_left (by simp)
      exact UInt32.lt_of_lt_of_le (complete.ended other old) (handed.later activeBelow)
    · -- the new task holds the pairs between the old cursor and the new one
      by_cases handedOut : place t n < p.pool.cursor
      · obtain ⟨other, held, here⟩ := complete.covered running t n started handedOut solves
        have different : other ≠ wid := by
          rintro rfl
          simp [getting] at here
        refine ⟨other, held, ?_⟩
        rw [setWorker_other _ _ different]
        exact here
      · refine ⟨wid, task, Or.inl ⟨setWorker_self _ wid _, ?_⟩⟩
        rw [mem_pairs_iff, handed.first, handed.behind activeBelow]
        exact ⟨Nat.le_of_not_lt handedOut, before⟩
  · exact complete.setWorker wid (fun here => by cases here) (fun _ _ _ _ _ => ⟨_, Or.inr rfl⟩)
  · apply complete.setWorker wid
    · intro here
      cases here
    · -- the search went through all nonces of the task, so that none of its pairs solves the block
      intro t n held solves here
      rw [searching] at here
      obtain ⟨same, inside⟩ | wrong := here
      · cases same
        have taskOf := sound.searching wid task searching
        refine absurd ?_ (unsolved n inside.2.1 inside.2.2)
        rw [taskOf.target, headerAt_of_task taskOf t n inside]
        exact solves
      · cases wrong
  · exact ⟨complete.ended, fun silent => (by cases silent)⟩

/-! ## Runs -/

/-- While nothing is reported, a worker that has not ended can take a step. -/
theorem workerStep_enabled (p : Process count) (wid : Fin count) (silent : p.reported = none)
    (running : p.workers wid ≠ .ended) : ∃ after, workerStep p wid = some after := by
  unfold workerStep
  rw [if_neg (by simp [silent])]
  cases state : p.workers wid with
  | getting =>
    cases call : findNonceNextTask p.pool with
    | none => exact ⟨_, rfl⟩
    | some answer => exact ⟨_, rfl⟩
  | searching task =>
    obtain ⟨result, search, -⟩ := findNonce_spec task
    dsimp only
    rw [search]
    exact ⟨_, rfl⟩
  | putting task => exact ⟨_, rfl⟩
  | ended => exact absurd state running

/-- Whatever the order of the workers' steps, a reported header solves the block in the given
range, and if all workers end with no report, nothing in the range solves it. -/
theorem workers_sound_complete (pool : FindNonceTaskPool) (fresh : pool.nonce = 0)
    (below : pool.timestampMax < 0xFFFFFFFF) (someWorker : 0 < count) (schedule : List (Fin count))
    (final : Process count) (ran : run workerStep id (Process.start pool) schedule = some final) :
    (∀ header, final.reported = some header → ∃ t n, pool.timestamp ≤ t ∧ t ≤ pool.timestampMax ∧
      header = { pool.header with timestamp := t, nonce := n } ∧ Solves pool.target header) ∧
    ((∀ wid, final.workers wid = .ended) → final.reported = none → ∀ t n, pool.timestamp ≤ t →
      t ≤ pool.timestampMax →
        ¬ Solves pool.target { pool.header with timestamp := t, nonce := n }) ∧
    (∀ wid, final.reported = none → final.workers wid ≠ .ended →
      ∃ after, workerStep final wid = some after) := by
  obtain ⟨sound, complete⟩ := run_invariant (fun p => Sound pool p ∧ Complete pool p)
    (fun p wid after holds step => ⟨holds.1.step below step, holds.2.step below holds.1 step⟩) ran
    ⟨Process.start_sound pool, Process.start_complete pool fresh⟩
  refine ⟨sound.reported, fun ended silent t n started inRange solves => ?_, fun wid =>
    workerStep_enabled final wid⟩
  -- with all workers ended, the pool is exhausted and no worker holds a task
  have done := complete.ended ⟨0, someWorker⟩ (ended ⟨0, someWorker⟩)
  have handedOut : place t n < final.pool.cursor :=
    (place_lt_iff t n _ _).mpr (Or.inl (UInt32.lt_of_le_of_lt inRange done))
  obtain ⟨wid, task, here⟩ := complete.covered silent t n started handedOut solves
  rw [ended wid] at here
  simp at here

theorem workers_sound_complete_two :
    ∃ final : Process 2,
      run workerStep id (Process.start ⟨⟨1, Vector.replicate 32 0, Vector.replicate 32 0, 7, 0, 0⟩,
        Vector.replicate 32 0, 7, 7, 0, 2, by decide⟩) [0, 1] = some final ∧
      ∀ wid, final.reported = none → final.workers wid ≠ .ended →
        ∃ after, workerStep final wid = some after := by
  refine ⟨_, rfl, ?_⟩
  exact (workers_sound_complete ⟨⟨1, Vector.replicate 32 0, Vector.replicate 32 0, 7, 0, 0⟩,
    Vector.replicate 32 0, 7, 7, 0, 2, by decide⟩ rfl (by decide) (by decide) [0, 1] _ rfl).2.2

end NuLab.Solver
