import NuLab.FindNonce.Worker
import NuLab.Lib.Threads

/-! # The race of `find_nonce_par`

All threads share `FindNonceStopFlag`, and each has a buffer of its own.  The schedule is
arbitrary, and so is which reads see the flag.
-/

namespace NuLab.FindNonce

open NuLab.Bytes NuLab.Run NuLab.Sha256 NuLab.Solver NuLab.Threads NuLab.Tiling

abbrev Race (count : Nat) := Threaded (Fin count) Bool FindNonceThread

/-- The threads that are created for the jobs. -/
def Race.start (stopFlag : Bool) (jobs : List FindNonceWorkerJob) : Race jobs.length where
  shared := stopFlag
  locals i := findNonceWorkerV1 jobs[i]

abbrev raceStep {count : Nat} (race : Race count) (input : Fin count × Bool) :
    Option (Race count) :=
  threadsStep findNonceStep race input

/-- The result of `find_nonce_par` when all threads are joined: that of the
first job with a success. -/
def Race.result {count : Nat} (buf : List UInt8) (race : Race count) : Option (Int × List UInt8) :=
  if ∀ i, (race.locals i).label.isReturned then
    match (List.ofFn fun i => ((race.locals i).label.ec, (race.locals i).block.bytes)).find?
      fun r => r.1 = 0 with
    | some (_, found) => some (0, found)
    | none => some (BcNotFound, buf)
  else none

/-! ## What a thread knows -/

def Equal (block : BcBlockHeader) (job : FindNonceWorkerJob) (nonce : UInt32) : Prop :=
  hashValue block nonce = ofLE job.target.toList

/-- The nonces that a thread has tried when it is at a label, with what it found. -/
def KnowsAt (block : BcBlockHeader) (job : FindNonceWorkerJob) (stopFlag : Bool)
    (t : FindNonceThread) : Prop :=
  match t.label with
  | .entry => t.nonce = job.min
  | .proc => Hashed t.ctxBase (front block) ∧ t.nonce ∈ job.nonces ∧
      ∀ k, job.min ≤ k → k < t.nonce → ¬ Equal block job k
  | .nextNonce => Hashed t.ctxBase (front block) ∧ t.nonce ∈ job.nonces ∧
      ∀ k, job.min ≤ k → k ≤ t.nonce → ¬ Equal block job k
  | .found => t.block = withNonce block t.nonce ∧ t.nonce ∈ job.nonces ∧ Equal block job t.nonce
  | .returned ec =>
    (ec = BcSuccess ∧ stopFlag = true ∧ ∃ n ∈ job.nonces, Equal block job n ∧
      t.block = withNonce block n) ∨
      (ec = BcNotFound ∧ ∀ k ∈ job.nonces, ¬ Equal block job k) ∨
        (ec = BcCanceled ∧ stopFlag = true)

structure Knows (block : BcBlockHeader) (job : FindNonceWorkerJob) (stopFlag : Bool)
    (t : FindNonceThread) : Prop where
  sameJob : t.job = job
  header : ∀ n, withNonce t.block n = withNonce block n
  here : KnowsAt block job stopFlag t

theorem front_of_header {block other : BcBlockHeader}
    (header : ∀ n, withNonce other n = withNonce block n) :
    front other = front block := by
  rw [← front_withNonce other 0, header 0, front_withNonce]

/-- No step clears the flag, and what a thread knows does not need a clear one. -/
theorem Knows.stable {block : BcBlockHeader} {job : FindNonceWorkerJob} {stopFlag later : Bool}
    {t : FindNonceThread} (knows : Knows block job stopFlag t)
    (kept : stopFlag = true → later = true) : Knows block job later t := by
  obtain ⟨sameJob, header, here⟩ := knows
  refine ⟨sameJob, header, ?_⟩
  unfold KnowsAt at here ⊢
  cases label : t.label with
  | returned ec =>
    simp only [label] at here ⊢
    obtain ⟨success, set, found⟩ | notFound | ⟨canceled, set⟩ := here
    · exact Or.inl ⟨success, kept set, found⟩
    · exact Or.inr (Or.inl notFound)
    · exact Or.inr (Or.inr ⟨canceled, kept set⟩)
  | entry => simpa only [label] using here
  | proc => simpa only [label] using here
  | nextNonce => simpa only [label] using here
  | found => simpa only [label] using here

/-! ## Steps -/

theorem nonces_before {job : FindNonceWorkerJob} {nonce : UInt32} (k : UInt32)
    (more : ¬ job.max ≤ nonce) (below : k < nonce + 1) : k ≤ nonce := by
  rw [UInt32.lt_iff_toNat_lt, nonce_succ more] at below
  exact UInt32.le_iff_toNat_le.mpr (Nat.lt_succ_iff.mp below)

theorem nonces_succ {job : FindNonceWorkerJob} {nonce : UInt32} (inside : nonce ∈ job.nonces)
    (more : ¬ job.max ≤ nonce) : nonce + 1 ∈ job.nonces := by
  have next := nonce_succ more
  have low := UInt32.le_iff_toNat_le.mp inside.1
  rw [UInt32.le_iff_toNat_le] at more
  refine ⟨UInt32.le_iff_toNat_le.mpr ?_, UInt32.le_iff_toNat_le.mpr ?_⟩
  · rw [next]
    omega
  · rw [next]
    omega

variable {block : BcBlockHeader} {job : FindNonceWorkerJob} {stopFlag seen : Bool}
  {t : FindNonceThread}

/-- A step of a thread does not clear the flag, and keeps what the thread knows. -/
theorem Moves.knows (sameBuf : job.buf = block.bytes) (nonempty : job.min ≤ job.max) {later : Bool}
    {after : FindNonceThread} (moves : Moves stopFlag t later after)
    (knows : Knows block job stopFlag t) :
    (stopFlag = true → later = true) ∧ Knows block job later after := by
  obtain ⟨rfl, header, here⟩ := knows
  have sameFront := front_of_header header
  cases moves with
  | invalid label short =>
    rw [sameBuf, BcBlockHeader.bytes_length] at short
    exact absurd short (Nat.lt_irrefl 80)
  | begun label update =>
    simp only [KnowsAt, label] at here
    obtain ⟨ctxBase, sameUpdate, hashed⟩ := front_hashed t.block
    obtain rfl := Option.some.inj (sameUpdate.symm.trans update)
    -- the search starts at the first nonce, with none in front of it
    have start : t.nonce ∈ t.job.nonces := by
      rw [here]
      exact ⟨UInt32.le_refl _, nonempty⟩
    refine ⟨id, rfl, header, sameFront ▸ hashed, start, fun k low below => ?_⟩
    rw [here] at below
    exact absurd (UInt32.lt_of_le_of_lt low below) (UInt32.lt_irrefl _)
  | failed label error ran =>
    simp only [KnowsAt, label] at here
    have same : Hashed t.ctxBase (front (withNonce t.block t.nonce)) := by
      rw [front_withNonce, sameFront]
      exact here.1
    rw [proc_hash256 same] at ran
    cases ran
    exact absurd rfl error
  | tried label ran =>
    simp only [KnowsAt, label] at here
    obtain ⟨hashed, inside, before⟩ := here
    have same : Hashed t.ctxBase (front (withNonce t.block t.nonce)) := by
      rw [front_withNonce, sameFront]
      exact hashed
    rw [proc_hash256 same, header] at ran
    cases ran
    have compared : i256Compare (hash256 (withNonce block t.nonce).bytes) t.job.target = 0 ↔
        Equal block t.job t.nonce :=
          (i256Compare_eq_zero_iff _ _).trans (hash256_eq_iff block t.nonce t.job.target)
    by_cases equal : Equal block t.job t.nonce
    · have zero := compared.mpr equal
      refine ⟨id, rfl, header, ?_⟩
      simp only [KnowsAt, FindNonceThread.tried, ne_eq, zero, not_true, if_false]
      exact ⟨header t.nonce, inside, equal⟩
    · have nonzero := mt compared.mp equal
      refine ⟨id, rfl, header, ?_⟩
      simp only [KnowsAt, FindNonceThread.tried, ne_eq, nonzero, not_false_eq_true, if_true]
      refine ⟨hashed, inside, fun k low high => ?_⟩
      -- the nonce that was tried in this step, or one before it
      rcases UInt32.lt_or_eq_of_le high with below | rfl
      · exact before k low below
      · exact equal
  | last label high =>
    simp only [KnowsAt, label] at here
    obtain ⟨hashed, inside, before⟩ := here
    -- at the last nonce of the job, all of them have been tried
    refine ⟨id, rfl, header, Or.inr (Or.inl ⟨rfl, fun k member => ?_⟩)⟩
    exact before k member.1 (UInt32.le_trans member.2 high)
  | canceled label set => exact ⟨id, rfl, header, Or.inr (Or.inr ⟨rfl, set⟩)⟩
  | next label more =>
    simp only [KnowsAt, label] at here
    obtain ⟨hashed, inside, before⟩ := here
    refine ⟨id, rfl, header, hashed, nonces_succ inside more, fun k low below => ?_⟩
    exact before k low (nonces_before k more below)
  | success label =>
    simp only [KnowsAt, label] at here
    obtain ⟨sameBlock, inside, equal⟩ := here
    exact ⟨fun _ => rfl, rfl, header, Or.inl ⟨rfl, rfl, t.nonce, inside, equal, sameBlock⟩⟩

/-- Only a success sets the flag. -/
theorem Moves.flag {later : Bool} {after : FindNonceThread} (moves : Moves stopFlag t later after)
    (set : later = true) : stopFlag = true ∨ after.label = .returned BcSuccess := by
  cases moves with
  | success label => exact Or.inr rfl
  | _ => exact Or.inl set

/-- How many steps are left for a thread at most. -/
def FindNonceThread.left (t : FindNonceThread) : Nat :=
  match t.label with
  | .entry => 2 * (t.job.max.toNat - t.nonce.toNat) + 3
  | .proc => 2 * (t.job.max.toNat - t.nonce.toNat) + 2
  | .nextNonce => 2 * (t.job.max.toNat - t.nonce.toNat) + 1
  | .found => 1
  | .returned _ => 0

theorem Moves.left_lt {later : Bool} {after : FindNonceThread}
    (moves : Moves stopFlag t later after) :
    after.left < t.left := by
  cases moves with
  | tried label ran =>
    simp only [FindNonceThread.left, FindNonceThread.tried, label]
    split_ifs <;> simp
  | next label more =>
    have succ := nonce_succ more
    rw [UInt32.le_iff_toNat_le] at more
    simp only [FindNonceThread.left, label, succ]
    omega
  | invalid label short => simp [FindNonceThread.left, label]
  | begun label update => simp [FindNonceThread.left, label]
  | failed label error ran => simp [FindNonceThread.left, label]
  | last label high => simp [FindNonceThread.left, label]
  | canceled label set => simp [FindNonceThread.left, label]
  | success label => simp [FindNonceThread.left, label]

/-- A thread that has not returned can take a step, whatever it sees of the flag. -/
theorem findNonceStep_enabled (seen : Bool) (knows : Knows block job stopFlag t)
    (running : t.label.isReturned = false) :
    ∃ after, findNonceStep stopFlag t seen = some after := by
  obtain ⟨rfl, header, here⟩ := knows
  unfold KnowsAt at here
  unfold findNonceStep
  cases label : t.label with
  | entry =>
    obtain ⟨ctxBase, update, -⟩ := front_hashed t.block
    simp only [update, Option.map_some]
    split <;> exact ⟨_, rfl⟩
  | proc =>
    simp only [label] at here
    have same : Hashed t.ctxBase (front (withNonce t.block t.nonce)) := by
      rw [front_withNonce, front_of_header header]
      exact here.1
    simp only [proc_hash256 same, ne_eq, not_true, if_false]
    exact ⟨_, rfl⟩
  | nextNonce =>
    dsimp only
    split
    · exact ⟨_, rfl⟩
    · split <;> exact ⟨_, rfl⟩
  | found => exact ⟨_, rfl⟩
  | returned ec => simp [label, FindNonceLabel.isReturned] at running

/-! ## Schedules -/

variable {buf : List UInt8} {target : BcHash32} {nd nonceMin nonceMax : UInt32}
  {jobs : List FindNonceWorkerJob}

theorem parJobsLoop_members (count : Nat) (n : UInt32) :
    ∀ job ∈ parJobsLoop buf target nd count n, job.buf = buf ∧ job.target = target := by
  induction count generalizing n with
  | zero => simp [parJobsLoop]
  | succ count inductionHypothesis => simpa [parJobsLoop] using inductionHypothesis (n + nd)

theorem findNonceParJobs_members (set : findNonceParJobs buf nonceMin nonceMax target = some jobs) :
    ∀ job ∈ jobs, job.buf = buf ∧ job.target = target := by
  by_cases positive : jobWidth nonceMin nonceMax > 0
  · obtain rfl := Option.some.inj ((if_pos positive).symm.trans set)
    intro job member
    obtain ⟨i, bound, rfl⟩ := List.mem_iff_getElem.mp member
    rw [List.length_modify] at bound
    have same := parJobsLoop_members 20 nonceMin _ (List.getElem_mem bound)
    rw [List.getElem_modify]
    split
    · exact same
    · exact same
  · cases (if_neg positive).symm.trans set

/-- What the jobs of `find_nonce_par` have in common. -/
structure JobsOf (block : BcBlockHeader) (target : BcHash32) (nonceMin nonceMax : UInt32)
    (jobs : List FindNonceWorkerJob) : Prop where
  length : jobs.length = 20
  buf : ∀ job ∈ jobs, job.buf = block.bytes
  target : ∀ job ∈ jobs, job.target = target
  tiles : Tiles FindNonceWorkerJob.first FindNonceWorkerJob.behind nonceMin.toNat jobs
    (nonceMax.toNat + 1)

theorem findNonceParJobs_jobsOf (block : BcBlockHeader) (target : BcHash32)
    (span : nonceMin.toNat + 20 ≤ nonceMax.toNat + 1) :
    ∃ jobs, findNonceParJobs block.bytes nonceMin nonceMax target = some jobs ∧
      JobsOf block target nonceMin nonceMax jobs := by
  obtain ⟨jobs, set, length, tiles⟩ := findNonceParJobs_tiles block.bytes target span
  have members := findNonceParJobs_members set
  exact ⟨jobs, set, length, fun job member => (members job member).1, fun job member =>
    (members job member).2, tiles⟩

/-- Every thread knows what it should. -/
def RaceKnows (block : BcBlockHeader) (jobs : List FindNonceWorkerJob) (race : Race jobs.length) :
    Prop :=
  ∀ i : Fin jobs.length, Knows block jobs[i] race.shared (race.locals i)

theorem start_knows (jobsOf : JobsOf block target nonceMin nonceMax jobs) (stopFlag : Bool) :
    RaceKnows block jobs (Race.start stopFlag jobs) := by
  intro i
  refine ⟨rfl, fun n => ?_, rfl⟩
  have image : BcBlockHeader.ofImage jobs[i].buf = block := by
    rw [jobsOf.buf jobs[i] (List.getElem_mem i.isLt), BcBlockHeader.ofImage_bytes]
  exact congrArg (fun block => withNonce block n) image

theorem raceStep_knows (jobsOf : JobsOf block target nonceMin nonceMax jobs)
    (race : Race jobs.length) (input : Fin jobs.length × Bool) (after : Race jobs.length)
    (holds : RaceKnows block jobs race) (stepped : raceStep race input = some after) :
    RaceKnows block jobs after := by
  refine threadsStep_knows (fun i stopFlag t => Knows block jobs[i] stopFlag t)
    (fun flag later => flag = true → later = true) ?_ ?_ race input after holds stepped
  · intro i stopFlag t seen later after knows stepped
    have nonempty := Nat.lt_succ_iff.mp (jobsOf.tiles.nonempty _ (List.getElem_mem i.isLt))
    exact (findNonceStep_moves stepped).knows (jobsOf.buf _ (List.getElem_mem _))
      (UInt32.le_iff_toNat_le.mpr nonempty)
      knows
  · intro i stopFlag later t knows kept
    exact knows.stable kept

theorem race_knows (jobsOf : JobsOf block target nonceMin nonceMax jobs)
    {schedule : List (Fin jobs.length × Bool)} {final : Race jobs.length}
    (ran : run raceStep id (Race.start stopFlag jobs) schedule = some final) :
    RaceKnows block jobs final :=
  run_invariant (RaceKnows block jobs) (raceStep_knows jobsOf) ran (start_knows jobsOf stopFlag)

/-- The flag is set by a thread that was successful. -/
theorem race_accounted {schedule : List (Fin jobs.length × Bool)} {final : Race jobs.length}
    (ran : run raceStep id (Race.start false jobs) schedule = some final)
    (set : final.shared = true) :
    ∃ i, (final.locals i).label = .returned BcSuccess := by
  refine run_accounted (fun flag => flag = true)
    (fun t : FindNonceThread => t.label = .returned BcSuccess) ?_ ?_ ran
    (fun clear => by cases clear) set
  · intro stopFlag t seen later after stepped set
    exact (findNonceStep_moves stepped).flag set
  · intro stopFlag t seen later after stepped returned
    simp [findNonceStep, returned] at stepped

/-- At most two steps for each nonce, and three for a thread. -/
theorem start_left (jobsOf : JobsOf block target nonceMin nonceMax jobs) (stopFlag : Bool) :
    ∑ i, ((Race.start stopFlag jobs).locals i).left =
      2 * (nonceMax.toNat + 1 - nonceMin.toNat) + 20 := by
  have total := jobsOf.tiles.sum_width
  have one : ∀ job ∈ jobs, (findNonceWorkerV1 job).left = 2 * (job.behind - job.first) + 1 := by
    intro job member
    have nonempty := jobsOf.tiles.nonempty job member
    simp only [FindNonceThread.left, findNonceWorkerV1, FindNonceWorkerJob.behind,
      FindNonceWorkerJob.first] at nonempty ⊢
    omega
  calc ∑ i, ((Race.start stopFlag jobs).locals i).left
      = (jobs.map fun job => (findNonceWorkerV1 job).left).sum :=
        Fin.sum_univ_fun_getElem jobs fun job => (findNonceWorkerV1 job).left
    _ = (jobs.map fun job => 2 * (job.behind - job.first) + 1).sum := by
      rw [List.map_congr_left one]
    _ = 2 * (jobs.map fun job => job.behind - job.first).sum + jobs.length := by
        rw [List.sum_map_add, List.sum_map_mul_left]
        simp
    _ = 2 * (nonceMax.toNat + 1 - nonceMin.toNat) + 20 := by
        rw [jobsOf.length]
        omega

/-! ## The end of a race -/

/-- The steps that are left for all threads at most. -/
def Race.left {count : Nat} (race : Race count) : Nat := ∑ i, (race.locals i).left

theorem raceStep_left {count : Nat} {race after : Race count} {input : Fin count × Bool}
    (stepped : raceStep race input = some after) : after.left < race.left := by
  refine threadsStep_sum_lt FindNonceThread.left ?_ stepped
  intro stopFlag t seen later after stepped
  exact (findNonceStep_moves stepped).left_lt

/-- Until all threads are joined, one of them can take a step. -/
theorem race_progress {race : Race jobs.length} (knows : RaceKnows block jobs race)
    (buf : List UInt8) :
    (∃ result, race.result buf = some result) ∨ ∃ i, ∀ seen, ∃ after,
      raceStep race (i, seen) = some after := by
  by_cases returned : ∀ i, (race.locals i).label.isReturned
  · left
    unfold Race.result
    rw [if_pos returned]
    split
    · exact ⟨_, rfl⟩
    · exact ⟨_, rfl⟩
  · right
    obtain ⟨i, running⟩ := not_forall.mp returned
    refine ⟨i, fun seen => ?_⟩
    obtain ⟨after, stepped⟩ := findNonceStep_enabled seen (knows i) (by simpa using running)
    exact ⟨_, by rw [raceStep, threadsStep, stepped, Option.map_some]⟩

/-- No schedule is longer than two steps for each nonce and one for each thread, and until all
threads are joined one of them can take a step. -/
theorem findNoncePar_ends (stopFlag : Bool) (block : BcBlockHeader) (target : BcHash32)
    (nonceMin nonceMax : UInt32) (span : nonceMin.toNat + 20 ≤ nonceMax.toNat + 1) :
    ∃ jobs, findNonceParJobs block.bytes nonceMin nonceMax target = some jobs ∧
      ∀ schedule final, run raceStep id (Race.start stopFlag jobs) schedule = some final →
        schedule.length ≤ 2 * (nonceMax.toNat + 1 - nonceMin.toNat) + 20 ∧
        ((∃ result, final.result block.bytes = some result) ∨
          ∃ i, ∀ seen, ∃ after, raceStep final (i, seen) = some after) := by
  obtain ⟨jobs, set, jobsOf⟩ := findNonceParJobs_jobsOf block target span
  refine ⟨jobs, set, fun schedule final ran => ⟨?_, race_progress (race_knows jobsOf ran) _⟩⟩
  have bounded := run_length_le (fun _ => True) Race.left
    (fun _ _ _ _ stepped => ⟨trivial, raceStep_left stepped⟩) ran trivial
  have start : (Race.start stopFlag jobs).left = _ := start_left jobsOf stopFlag
  omega

/-- Over all nonces. -/
theorem findNoncePar_ends_all :
    ∃ jobs, findNonceParJobs zeroBlock.bytes 0 0xFFFFFFFF (Vector.replicate 32 0) = some jobs ∧
      ∀ schedule final, run raceStep id (Race.start false jobs) schedule = some final →
        schedule.length ≤ 2 * 2 ^ 32 + 20 := by
  obtain ⟨jobs, set, ends⟩ :=
    findNoncePar_ends false zeroBlock (Vector.replicate 32 0) 0 0xFFFFFFFF (by decide)
  exact ⟨jobs, set, fun schedule final ran => (ends schedule final ran).1⟩

/-- Some schedule gets all threads joined. -/
theorem exists_joined (jobsOf : JobsOf block target nonceMin nonceMax jobs) (stopFlag : Bool) :
    ∃ schedule final result, run raceStep id (Race.start stopFlag jobs) schedule = some final ∧
      final.result block.bytes = some result := by
  obtain ⟨schedule, final, ran, result, joined⟩ :=
    exists_run_to_end (RaceKnows block jobs)
      (fun race => ∃ result, race.result block.bytes = some result) Race.left
      (fun race input after knows stepped =>
        ⟨raceStep_knows jobsOf race input after knows stepped, raceStep_left stepped⟩)
      (fun race knows running => by
        obtain ⟨i, enabled⟩ := (race_progress knows block.bytes).resolve_left running
        obtain ⟨after, stepped⟩ := enabled true
        exact ⟨_, after, stepped⟩)
      (Race.start stopFlag jobs) (start_knows jobsOf stopFlag)
  exact ⟨schedule, final, result, ran, joined⟩

/-! ## The result of a race -/

theorem eq_returned {label : FindNonceLabel} (returned : label.isReturned = true) :
    label = .returned label.ec := by
  cases label with
  | returned ec => rfl
  | _ => cases returned

theorem result_found {buf : List UInt8} {race : Race jobs.length} {result : Int × List UInt8}
    (joined : race.result buf = some result) :
    (∀ i, (race.locals i).label = .returned (race.locals i).label.ec) ∧
    ((∃ i, (race.locals i).label.ec = BcSuccess ∧
      result = (BcSuccess, (race.locals i).block.bytes)) ∨
      ((∀ i, (race.locals i).label.ec ≠ BcSuccess) ∧ result = (BcNotFound, buf))) := by
  unfold Race.result at joined
  split at joined
  next returned =>
    refine ⟨fun i => eq_returned (returned i), ?_⟩
    split at joined
    next ec bytes found =>
      obtain rfl := Option.some.inj joined
      obtain ⟨i, same⟩ := List.mem_ofFn.mp (List.mem_of_find?_eq_some found)
      have success : ec = 0 := by simpa using List.find?_some found
      cases same
      exact Or.inl ⟨i, success, rfl⟩
    next none =>
      obtain rfl := Option.some.inj joined
      exact Or.inr ⟨by simpa [BcSuccess] using none, rfl⟩
  · cases joined

/-- A race agrees with one search over the whole range: code and flag are the same.  A success is a
nonce at the one of the search or behind, and a failure leaves the buffer as it was. -/
structure ParAgrees (call : FindNonceCall) (search : Int × BcBlockHeader × Bool) (stopFlag : Bool)
    (result : Int × List UInt8) : Prop where
  code : result.1 = search.1
  flag : stopFlag = search.2.2
  success : result.1 = BcSuccess → ∃ n, call.nonceMin ≤ n ∧ n ≤ call.nonceMax ∧
    hashValue call.block n = ofLE call.target.toList ∧ result.2 = (withNonce call.block n).bytes ∧
    search.2.1.nonce ≤ n
  failure : result.1 ≠ BcSuccess → result = (BcNotFound, call.block.bytes) ∧
    ∀ n, call.nonceMin ≤ n → n ≤ call.nonceMax → hashValue call.block n ≠ ofLE call.target.toList

theorem Knows.of_success (knows : Knows block job stopFlag t)
    (success : t.label = .returned BcSuccess) :
    stopFlag = true ∧ ∃ n ∈ job.nonces, Equal block job n ∧ t.block = withNonce block n := by
  have here := knows.here
  simp only [KnowsAt, success, BcSuccess, BcNotFound, BcCanceled] at here
  simpa using here

/-- With the flag clear, a thread that has returned and was not successful has
tried all its nonces. -/
theorem Knows.of_failure (knows : Knows block job stopFlag t) (clear : stopFlag = false) {ec : Int}
    (returned : t.label = .returned ec) (failed : ec ≠ BcSuccess) :
    ∀ n ∈ job.nonces, ¬ Equal block job n := by
  have here := knows.here
  simp only [KnowsAt, returned] at here
  obtain ⟨success, -⟩ | ⟨-, none⟩ | ⟨-, set⟩ := here
  · exact absurd success failed
  · exact none
  · rw [clear] at set
    cases set

theorem race_agrees (jobsOf : JobsOf block target nonceMin nonceMax jobs)
    {search : Int × BcBlockHeader × Bool} (exact : Exact block target nonceMin nonceMax search)
    {schedule : List (Fin jobs.length × Bool)} {final : Race jobs.length}
    (ran : run raceStep id (Race.start false jobs) schedule = some final)
    {result : Int × List UInt8} (joined : final.result block.bytes = some result) :
    ParAgrees ⟨block, target, nonceMin, nonceMax⟩ search final.shared result := by
  have knows := race_knows jobsOf ran
  have cover := tiles_cover jobsOf.tiles
  have sameTarget : ∀ job ∈ jobs, ∀ n, Equal block job n ↔
      hashValue block n = ofLE target.toList := by
    intro job member n
    rw [Equal, jobsOf.target job member]
  obtain ⟨returned, ⟨i, success, rfl⟩ | ⟨failed, rfl⟩⟩ := result_found joined
  · have here := returned i
    rw [success] at here
    obtain ⟨set, n, inside, equal, header⟩ := (knows i).of_success here
    have member : jobs[i] ∈ jobs := List.getElem_mem i.isLt
    obtain ⟨low, high⟩ := (cover n).mp ⟨jobs[i], member, inside⟩
    have hit := (sameTarget jobs[i] member n).mp equal
    cases exact with
    | success m lowM highM equalM first =>
      refine ⟨rfl, set, fun _ => ⟨n, low, high, hit, by rw [header], ?_⟩, fun wrong =>
        absurd rfl wrong⟩
      -- no nonce in front of that of the search is equal to the target
      exact UInt32.not_lt.mp fun before => first n low before hit
    | notFound best none => exact absurd hit (none n low high)
  · have clear : final.shared = false := by
      by_contra set
      obtain ⟨i, success⟩ := race_accounted ran (Bool.eq_true_of_not_eq_false set)
      exact failed i (congrArg FindNonceLabel.ec success)
    have none : ∀ n, nonceMin ≤ n → n ≤ nonceMax → hashValue block n ≠ ofLE target.toList := by
      intro n low high hit
      obtain ⟨job, member, inside⟩ := (cover n).mpr ⟨low, high⟩
      obtain ⟨i, bound, rfl⟩ := List.mem_iff_getElem.mp member
      exact (knows ⟨i, bound⟩).of_failure clear (returned _) (failed _) n inside
        ((sameTarget _ member n).mpr hit)
    cases exact with
    | success m lowM highM equalM first => exact absurd equalM (none m lowM highM)
    | notFound best _ => exact ⟨rfl, clear, fun wrong => (by cases wrong), fun _ => ⟨rfl, none⟩⟩

/-- However the threads are scheduled, and whatever they see of the flag, `find_nonce_par`
agrees with one search. -/
theorem findNoncePar_agrees (block : BcBlockHeader) (target : BcHash32) (nonceMin nonceMax : UInt32)
    (span : nonceMin.toNat + 20 ≤ nonceMax.toNat + 1) :
    ∃ jobs search, findNonceParJobs block.bytes nonceMin nonceMax target = some jobs ∧
      bcFindNonce false ⟨block, target, nonceMin, nonceMax⟩ = some search ∧
      ∀ schedule final result, run raceStep id (Race.start false jobs) schedule = some final →
        final.result block.bytes = some result →
        ParAgrees ⟨block, target, nonceMin, nonceMax⟩ search final.shared result := by
  obtain ⟨jobs, set, jobsOf⟩ := findNonceParJobs_jobsOf block target span
  have order : nonceMin ≤ nonceMax := UInt32.le_iff_toNat_le.mpr (by omega)
  obtain ⟨search, searched, exact⟩ := bcFindNonce_exact ⟨block, target, nonceMin, nonceMax⟩ order
  exact ⟨jobs, search, set, searched, fun schedule final result ran joined =>
    race_agrees jobsOf exact ran joined⟩

/-- A race over all nonces that ends. -/
theorem findNoncePar_agrees_all :
    ∃ jobs schedule final result search,
      run raceStep id (Race.start false jobs) schedule = some final ∧
      final.result zeroBlock.bytes = some result ∧
      ParAgrees ⟨zeroBlock, Vector.replicate 32 0, 0, 0xFFFFFFFF⟩ search final.shared result := by
  have span : (0 : UInt32).toNat + 20 ≤ (0xFFFFFFFF : UInt32).toNat + 1 := by decide
  obtain ⟨jobs, search, set, -, agrees⟩ :=
    findNoncePar_agrees zeroBlock (Vector.replicate 32 0) 0 0xFFFFFFFF span
  obtain ⟨_, sameSet, jobsOf⟩ := findNonceParJobs_jobsOf zeroBlock (Vector.replicate 32 0) span
  obtain rfl := Option.some.inj (set.symm.trans sameSet)
  obtain ⟨schedule, final, result, ran, joined⟩ := exists_joined jobsOf false
  exact ⟨jobs, schedule, final, result, search, ran, joined,
    agrees schedule final result ran joined⟩

end NuLab.FindNonce
