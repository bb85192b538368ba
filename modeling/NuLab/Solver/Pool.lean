import NuLab.Types
import NuLab.Lib.Tiling

/-! # The task pool of `main_block_solver.c`

`find_nonce_next_task` hands out the pairs of a timestamp and a nonce in
lexicographic order.  Read as numbers `t * 2 ^ 32 + n` the tasks are consecutive
intervals, so they tile everything up to the cursor.
-/

namespace NuLab.Solver

open NuLab.Tiling

/-- `find_nonce_task_t` -/
structure FindNonceTask where
  header : BcBlockHeader
  target : BcHash32
  nonceMin : UInt32
  nonceMax : UInt32
deriving DecidableEq

/-- `find_nonce_task_pool_t`; with no chunks the first division would fail. -/
structure FindNonceTaskPool where
  header : BcBlockHeader
  target : BcHash32
  timestamp : UInt32
  timestampMax : UInt32
  nonce : UInt32
  nonceChunks : UInt32
  someChunks : 0 < nonceChunks
deriving DecidableEq

def nonceMinValue : UInt32 := 0

def nonceMaxValue : UInt32 := 0xFFFFFFFF

def nonceChunk (pool : FindNonceTaskPool) : UInt32 :=
  (nonceMaxValue - nonceMinValue) / pool.nonceChunks

/-- `none` where the source returns 0, with pool and task as they were. -/
def findNonceNextTask (pool : FindNonceTaskPool) : Option (FindNonceTask × FindNonceTaskPool) :=
  let a : UInt64 := pool.nonce.toUInt64
  -- the sum has 64 bits and cannot wrap
  let b : UInt64 :=
    if a + (nonceChunk pool).toUInt64 > nonceMaxValue.toUInt64 then nonceMaxValue.toUInt64
    else a + (nonceChunk pool).toUInt64
  let t := pool.timestamp
  if t > pool.timestampMax then none
  else
    let after :=
      if b = nonceMaxValue.toUInt64
        then { pool with timestamp := pool.timestamp + 1, nonce := nonceMinValue }
      else { pool with nonce := (b + 1).toUInt32 }
    let task : FindNonceTask :=
      { nonceMin := a.toUInt32, nonceMax := b.toUInt32, target := pool.target,
        header := { pool.header with timestamp := t, nonce := a.toUInt32 } }
    some (task, after)

/-- `count` calls that are all answered with a task. -/
def nextTasks : Nat → FindNonceTaskPool → Option (List FindNonceTask × FindNonceTaskPool)
  | 0, pool => some ([], pool)
  | count + 1, pool => do
    let (task, pool) ← findNonceNextTask pool
    let (tasks, pool) ← nextTasks count pool
    some (task :: tasks, pool)

/-! ## Places -/

def place (timestamp nonce : UInt32) : Nat := timestamp.toNat * 2 ^ 32 + nonce.toNat

theorem place_lt_iff (t n t' n' : UInt32) : place t n < place t' n' ↔ t < t' ∨ t = t' ∧ n < n' := by
  have := n.toNat_lt
  have := n'.toNat_lt
  simp only [place, UInt32.lt_iff_toNat_lt, ← UInt32.toNat_inj]
  omega

theorem place_zero_le_iff (t₀ t n : UInt32) : place t₀ 0 ≤ place t n ↔ t₀ ≤ t := by
  have := n.toNat_lt
  simp only [place, UInt32.le_iff_toNat_le, UInt32.toNat_zero]
  omega

/-- The rectangle of a task. -/
def FindNonceTask.pairs (task : FindNonceTask) : Set (UInt32 × UInt32) :=
  {pair | pair.1 = task.header.timestamp ∧ task.nonceMin ≤ pair.2 ∧ pair.2 ≤ task.nonceMax}

def FindNonceTask.first (task : FindNonceTask) : Nat := place task.header.timestamp task.nonceMin

def FindNonceTask.behind (task : FindNonceTask) : Nat :=
  place task.header.timestamp task.nonceMax + 1

def FindNonceTaskPool.cursor (pool : FindNonceTaskPool) : Nat := place pool.timestamp pool.nonce

theorem mem_pairs_iff (task : FindNonceTask) (t n : UInt32) :
    (t, n) ∈ task.pairs ↔ place t n ∈ Set.Ico task.first task.behind := by
  have := n.toNat_lt
  have := task.nonceMin.toNat_lt
  have := task.nonceMax.toNat_lt
  simp only [FindNonceTask.pairs, Set.mem_ofPred_eq, Set.mem_Ico, FindNonceTask.first,
    FindNonceTask.behind, place, UInt32.le_iff_toNat_le, ← UInt32.toNat_inj]
  omega

/-! ## One call -/

/-- What a call that is answered with a task hands out and leaves. -/
structure Handed (pool : FindNonceTaskPool) (task : FindNonceTask) (after : FindNonceTaskPool) :
    Prop where
  header : task.header = { pool.header with timestamp := pool.timestamp, nonce := pool.nonce }
  target : task.target = pool.target
  nonceMin : task.nonceMin = pool.nonce
  same : after = { pool with timestamp := after.timestamp, nonce := after.nonce }
  advance :
    (task.nonceMax = nonceMaxValue ∧ 2 ^ 32 - 1 ≤ pool.nonce.toNat + (nonceChunk pool).toNat ∧
      after.timestamp = pool.timestamp + 1 ∧ after.nonce = 0) ∨
    (task.nonceMax.toNat = pool.nonce.toNat + (nonceChunk pool).toNat ∧
      pool.nonce.toNat + (nonceChunk pool).toNat < 2 ^ 32 - 1 ∧ after.timestamp = pool.timestamp ∧
      after.nonce.toNat = pool.nonce.toNat + (nonceChunk pool).toNat + 1)

theorem findNonceNextTask_done (pool : FindNonceTaskPool) :
    findNonceNextTask pool = none ↔ pool.timestampMax < pool.timestamp := by
  unfold findNonceNextTask
  dsimp only
  split
  next done => exact ⟨fun _ => done, fun _ => rfl⟩
  next active => exact ⟨fun contra => (by cases contra), fun done => absurd done active⟩

theorem findNonceNextTask_handed (pool : FindNonceTaskPool)
    (active : pool.timestamp ≤ pool.timestampMax) :
    ∃ task after, findNonceNextTask pool = some (task, after) ∧ Handed pool task after := by
  have nonceBound := pool.nonce.toNat_lt
  have chunkBound := (nonceChunk pool).toNat_lt
  have sum : (pool.nonce.toUInt64 + (nonceChunk pool).toUInt64).toNat =
      pool.nonce.toNat + (nonceChunk pool).toNat := by
    rw [UInt64.toNat_add, UInt32.toNat_toUInt64, UInt32.toNat_toUInt64]; omega
  have top : nonceMaxValue.toUInt64.toNat = 2 ^ 32 - 1 := rfl
  have running : ¬ pool.timestamp > pool.timestampMax := UInt32.not_lt.mpr active
  simp only [findNonceNextTask, if_neg running]
  have low : pool.nonce.toUInt64.toUInt32 = pool.nonce := by simp
  by_cases clamped : 2 ^ 32 - 1 ≤ pool.nonce.toNat + (nonceChunk pool).toNat
  · -- the last task of the timestamp, whether its end is clamped or just reached
    have last : (if pool.nonce.toUInt64 + (nonceChunk pool).toUInt64 > nonceMaxValue.toUInt64 then
        nonceMaxValue.toUInt64 else pool.nonce.toUInt64 + (nonceChunk pool).toUInt64) =
          nonceMaxValue.toUInt64 := by
      split
      · rfl
      next notAbove =>
        rw [gt_iff_lt, UInt64.lt_iff_toNat_lt] at notAbove
        exact UInt64.toNat_inj.mp (by omega)
    rw [last, if_pos rfl]
    exact ⟨_, _, rfl, by rw [low], rfl, low, rfl, Or.inl ⟨rfl, clamped, rfl, rfl⟩⟩
  · have inner : (if pool.nonce.toUInt64 + (nonceChunk pool).toUInt64 > nonceMaxValue.toUInt64 then
        nonceMaxValue.toUInt64 else pool.nonce.toUInt64 + (nonceChunk pool).toUInt64) =
        pool.nonce.toUInt64 + (nonceChunk pool).toUInt64 := by
      rw [if_neg (by rw [gt_iff_lt, UInt64.lt_iff_toNat_lt]; omega)]
    have notLast : pool.nonce.toUInt64 + (nonceChunk pool).toUInt64 ≠ nonceMaxValue.toUInt64 := by
      rw [ne_eq, ← UInt64.toNat_inj]; omega
    have next : (pool.nonce.toUInt64 + (nonceChunk pool).toUInt64 + 1).toUInt32.toNat =
        pool.nonce.toNat + (nonceChunk pool).toNat + 1 := by
      rw [UInt64.toNat_toUInt32, UInt64.toNat_add, sum]
      simp only [UInt64.reduceToNat]
      omega
    have stop : (pool.nonce.toUInt64 + (nonceChunk pool).toUInt64).toUInt32.toNat =
        pool.nonce.toNat + (nonceChunk pool).toNat := by
      rw [UInt64.toNat_toUInt32, sum]; omega
    rw [inner, if_neg notLast]
    exact ⟨_, _, rfl, by rw [low], rfl, low, rfl, Or.inr ⟨stop, by omega, rfl, next⟩⟩

theorem Handed.timestamp {pool after : FindNonceTaskPool} {task : FindNonceTask}
    (handed : Handed pool task after) : task.header.timestamp = pool.timestamp := by
  rw [handed.header]

theorem Handed.first {pool after : FindNonceTaskPool} {task : FindNonceTask}
    (handed : Handed pool task after) :
    task.first = pool.cursor := by
  rw [FindNonceTask.first, handed.timestamp, handed.nonceMin, FindNonceTaskPool.cursor]

theorem timestamp_succ {t : UInt32} (below : t < 0xFFFFFFFF) : (t + 1).toNat = t.toNat + 1 := by
  have order := UInt32.lt_iff_toNat_lt.mp below
  rw [UInt32.toNat_add]
  simp only [UInt32.reduceToNat] at order ⊢
  omega

/-- The next task begins behind this one, also over the end of a timestamp. -/
theorem Handed.behind {pool after : FindNonceTaskPool} {task : FindNonceTask}
    (handed : Handed pool task after) (below : pool.timestamp < 0xFFFFFFFF) :
    task.behind = after.cursor := by
  rw [FindNonceTask.behind, handed.timestamp, FindNonceTaskPool.cursor, place, place]
  obtain ⟨last, -, timestamp, nonce⟩ | ⟨stop, -, timestamp, nonce⟩ := handed.advance
  · rw [last, timestamp, nonce, timestamp_succ below]
    simp only [nonceMaxValue, UInt32.reduceToNat]
    omega
  · rw [stop, timestamp, nonce]
    omega

theorem Handed.nonempty {pool after : FindNonceTaskPool} {task : FindNonceTask}
    (handed : Handed pool task after) :
    task.nonceMin ≤ task.nonceMax := by
  have := pool.nonce.toNat_lt
  rw [UInt32.le_iff_toNat_le, handed.nonceMin]
  obtain ⟨last, -⟩ | ⟨stop, -⟩ := handed.advance
  · rw [last]; simp only [nonceMaxValue, UInt32.reduceToNat]; omega
  · rw [stop]; exact Nat.le_add_right _ _

/-! ## Sequences of calls -/

theorem nextTasks_cases {count : Nat} {pool after : FindNonceTaskPool} {tasks : List FindNonceTask}
    (run : nextTasks (count + 1) pool = some (tasks, after)) :
    ∃ task middle rest, tasks = task :: rest ∧ pool.timestamp ≤ pool.timestampMax ∧
      Handed pool task middle ∧
      nextTasks count middle = some (rest, after) := by
  obtain ⟨⟨task, middle⟩, call, run⟩ := Option.bind_eq_some_iff.mp run
  obtain ⟨⟨rest, final⟩, calls, done⟩ := Option.bind_eq_some_iff.mp run
  cases done
  have active : pool.timestamp ≤ pool.timestampMax := by
    by_contra late
    rw [(findNonceNextTask_done pool).mpr (UInt32.not_le.mp late)] at call
    cases call
  obtain ⟨sameTask, sameMiddle, sameCall, handed⟩ := findNonceNextTask_handed pool active
  rw [call, Option.some.injEq, Prod.mk.injEq] at sameCall
  obtain ⟨rfl, rfl⟩ := sameCall
  exact ⟨task, middle, rest, rfl, active, handed, calls⟩

/-- The tasks tile the places from the first cursor to the last; only the cursor moves. -/
theorem nextTasks_tiles {count : Nat} {pool after : FindNonceTaskPool} {tasks : List FindNonceTask}
    (run : nextTasks count pool = some (tasks, after)) (below : pool.timestampMax < 0xFFFFFFFF) :
    Tiles FindNonceTask.first FindNonceTask.behind pool.cursor tasks after.cursor ∧
      after = { pool with timestamp := after.timestamp, nonce := after.nonce } := by
  induction count generalizing pool tasks with
  | zero =>
    cases run
    exact ⟨Tiles.nil _, rfl⟩
  | succ count inductionHypothesis =>
    obtain ⟨task, middle, rest, rfl, active, handed, calls⟩ := nextTasks_cases run
    have ends := handed.behind (UInt32.lt_of_le_of_lt active below)
    obtain ⟨tiles, same⟩ := inductionHypothesis calls (by rw [handed.same]; exact below)
    refine ⟨?_, by rw [same, handed.same]⟩
    rw [← handed.first]
    rw [← ends] at tiles
    exact Tiles.cons (mem_pairs_iff task _ _ |>.mp ⟨rfl, Nat.le_refl _, handed.nonempty⟩).2 tiles

theorem chunks_reach (pool : FindNonceTaskPool) :
    2 ^ 32 ≤ pool.nonceChunks.toNat * ((nonceChunk pool).toNat + 1) := by
  have positive : 0 < pool.nonceChunks.toNat := UInt32.lt_iff_toNat_lt.mp pool.someChunks
  have chunk : (nonceChunk pool).toNat = (2 ^ 32 - 1) / pool.nonceChunks.toNat := by
    rw [nonceChunk, UInt32.toNat_div]; rfl
  have := Nat.lt_mul_div_succ (2 ^ 32 - 1) positive
  rw [chunk]
  omega

/-- A pool that has handed out `j` chunks of its timestamp has at most
`nonceChunks - j` left for it. -/
theorem nextTasks_count {count j : Nat} {pool after : FindNonceTaskPool}
    {tasks : List FindNonceTask} (run : nextTasks count pool = some (tasks, after))
    (below : pool.timestampMax < 0xFFFFFFFF)
    (chunked : pool.nonce.toNat = j * ((nonceChunk pool).toNat + 1)) (t : UInt32) :
    tasks.countP (fun task => task.header.timestamp = t) ≤
      if t < pool.timestamp then 0 else if t = pool.timestamp then pool.nonceChunks.toNat - j
        else pool.nonceChunks.toNat := by
  induction count generalizing pool tasks j with
  | zero =>
    cases run
    exact Nat.zero_le _
  | succ count inductionHypothesis =>
    obtain ⟨task, middle, rest, rfl, active, handed, calls⟩ := nextTasks_cases run
    have sameChunks : middle.nonceChunks = pool.nonceChunks := by rw [handed.same]
    have sameChunk : nonceChunk middle = nonceChunk pool := by
      rw [nonceChunk, nonceChunk, sameChunks]
    -- `chunks_reach` bounds how often the nonce can have advanced within one timestamp
    have left : j < pool.nonceChunks.toNat := by
      have := pool.nonce.toNat_lt
      exact Nat.lt_of_mul_lt_mul_right
        (Nat.lt_of_lt_of_le (by rw [← chunked]; exact this) (chunks_reach pool))
    have middleBelow : middle.timestampMax < 0xFFFFFFFF := by rw [handed.same]; exact below
    rw [List.countP_cons, handed.timestamp]
    obtain ⟨-, -, timestamp, nonce⟩ | ⟨-, -, timestamp, nonce⟩ := handed.advance
    · have bound := inductionHypothesis (j := 0) calls middleBelow (by rw [nonce]; simp)
      have next := timestamp_succ (UInt32.lt_of_le_of_lt active below)
      rw [sameChunks, timestamp] at bound
      simp only [UInt32.lt_iff_toNat_lt, ← UInt32.toNat_inj, next, decide_eq_true_eq] at bound ⊢
      split_ifs at bound ⊢ <;> omega
    · have bound := inductionHypothesis (j := j + 1) calls middleBelow
        (by rw [nonce, sameChunk, chunked]; ring)
      rw [sameChunks, timestamp] at bound
      simp only [UInt32.lt_iff_toNat_lt, ← UInt32.toNat_inj, decide_eq_true_eq] at bound ⊢
      split_ifs at bound ⊢ <;> omega

/-- Which pairs the tasks of a pool that started with nonce 0 hold, in lexicographic order. -/
theorem nextTasks_pairs {count : Nat} {pool after : FindNonceTaskPool} {tasks : List FindNonceTask}
    (run : nextTasks count pool = some (tasks, after)) (below : pool.timestampMax < 0xFFFFFFFF)
    (fresh : pool.nonce = 0) (t n : UInt32) :
    (∃ task ∈ tasks, (t, n) ∈ task.pairs) ↔
      pool.timestamp ≤ t ∧ (t < after.timestamp ∨ t = after.timestamp ∧ n < after.nonce) := by
  have cover := (nextTasks_tiles run below).1.cover (place t n)
  simp only [mem_pairs_iff]
  rw [cover, FindNonceTaskPool.cursor, FindNonceTaskPool.cursor, fresh,
    place_zero_le_iff, place_lt_iff]

theorem nextTasks_exhausted {count : Nat} {pool after : FindNonceTaskPool}
    {tasks : List FindNonceTask} (run : nextTasks count pool = some (tasks, after))
    (below : pool.timestampMax < 0xFFFFFFFF) (fresh : pool.nonce = 0)
    (order : pool.timestamp ≤ pool.timestampMax) :
    findNonceNextTask after = none ↔
      ∀ t n, pool.timestamp ≤ t → t ≤ pool.timestampMax → ∃ task ∈ tasks, (t, n) ∈ task.pairs := by
  have sameMax : after.timestampMax = pool.timestampMax := by rw [(nextTasks_tiles run below).2]
  rw [findNonceNextTask_done, sameMax]
  simp only [nextTasks_pairs run below fresh]
  constructor
  · intro done t n started inRange
    exact ⟨started, Or.inl (UInt32.lt_of_le_of_lt inRange done)⟩
  · intro all
    obtain ⟨-, early | ⟨-, early⟩⟩ := all pool.timestampMax nonceMaxValue order (UInt32.le_refl _)
    · exact early
    · -- the largest nonce is never before a cursor of the same timestamp
      have := after.nonce.toNat_lt
      rw [UInt32.lt_iff_toNat_lt] at early
      simp only [nonceMaxValue, UInt32.reduceToNat] at early
      omega

/-- The tasks of the first `count` calls are an exact cover of the pairs before the cursor. -/
theorem findNonceNextTask_cover (pool after : FindNonceTaskPool) (count : Nat)
    (tasks : List FindNonceTask) (fresh : pool.nonce = 0)
    (order : pool.timestamp ≤ pool.timestampMax) (below : pool.timestampMax < 0xFFFFFFFF)
    (run : nextTasks count pool = some (tasks, after)) :
    (∀ task ∈ tasks, task.pairs.Nonempty) ∧
    tasks.Pairwise (fun first second => ∀ pair ∈ first.pairs, pair ∉ second.pairs) ∧
    (∀ t n, (∃ task ∈ tasks, (t, n) ∈ task.pairs) ↔
      pool.timestamp ≤ t ∧ (t < after.timestamp ∨ t = after.timestamp ∧ n < after.nonce)) ∧
    (∀ t, tasks.countP (fun task => task.header.timestamp = t) ≤ pool.nonceChunks.toNat ∧
      (pool.timestamp ≤ t → t < after.timestamp → ∀ n, ∃ task ∈ tasks, (t, n) ∈ task.pairs)) ∧
    (findNonceNextTask after = none ↔
      ∀ t n, pool.timestamp ≤ t → t ≤ pool.timestampMax → ∃ task ∈ tasks, (t, n) ∈ task.pairs) := by
  have tiles := (nextTasks_tiles run below).1
  refine ⟨fun task member => ⟨(task.header.timestamp, task.nonceMin), ?_⟩, ?_,
    nextTasks_pairs run below fresh, fun t =>
      ⟨?_, fun started passed n => (nextTasks_pairs run below fresh t n).mpr
        ⟨started, Or.inl passed⟩⟩,
    nextTasks_exhausted run below fresh order⟩
  · rw [mem_pairs_iff]
    exact ⟨Nat.le_refl _, tiles.nonempty task member⟩
  · refine tiles.disjoint.imp fun {first second} apart => ?_
    rintro ⟨t, n⟩ inFirst inSecond
    exact apart (place t n) ((mem_pairs_iff first t n).mp inFirst)
      ((mem_pairs_iff second t n).mp inSecond)
  · refine Nat.le_trans (nextTasks_count (j := 0) run below (by rw [fresh]; simp) t) ?_
    split_ifs <;> omega

theorem findNonceNextTask_cover_two :
    ∃ tasks after,
      nextTasks 2 ⟨⟨1, Vector.replicate 32 0, Vector.replicate 32 0, 7, 0, 0⟩,
        Vector.replicate 32 0, 7, 7,
        0, 2, by decide⟩ = some (tasks, after) ∧
      (findNonceNextTask after = none ↔ ∀ t n, 7 ≤ t → t ≤ 7 →
        ∃ task ∈ tasks, (t, n) ∈ task.pairs) := by
  refine ⟨_, _, rfl, ?_⟩
  exact (findNonceNextTask_cover ⟨⟨1, Vector.replicate 32 0, Vector.replicate 32 0, 7, 0, 0⟩,
    Vector.replicate 32 0, 7, 7, 0, 2, by decide⟩ _ 2 _ rfl (by decide) (by decide) rfl).2.2.2.2

end NuLab.Solver
