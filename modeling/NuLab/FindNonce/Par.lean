import NuLab.FindNonce.Code
import NuLab.Lib.Tiling

/-! # The jobs of `find_nonce_par`

A job is an inclusive range of nonces.  The first 19 jobs have the same width and the
last one ends where the whole range ends, so that the jobs tile it.  The 32-bit start of
the next job can wrap only behind the last one.
-/

namespace NuLab.FindNonce

open NuLab.Tiling

/-- `find_nonce_worker_job_t` -/
structure FindNonceWorkerJob where
  buf : List UInt8
  min : UInt32
  max : UInt32
  target : BcHash32
deriving DecidableEq

/-- The loop that sets up `count` jobs from the nonce `n` on. -/
def parJobsLoop (buf : List UInt8) (target : BcHash32) (nd : UInt32) :
    Nat → UInt32 → List FindNonceWorkerJob
  | 0, _ => []
  | count + 1, n =>
    { buf := buf, min := n, max := n + (nd - 1), target := target } ::
      parJobsLoop buf target nd count (n + nd)

/-- `nd`; the quotient of 64 bits is cut. -/
def jobWidth (nonceMin nonceMax : UInt32) : UInt32 :=
  ((nonceMax.toUInt64 - nonceMin.toUInt64 + 1) / 20).toUInt32

/-- `none`: the assertion fails. -/
def findNonceParJobs (buf : List UInt8) (nonceMin nonceMax : UInt32) (target : BcHash32) :
    Option (List FindNonceWorkerJob) :=
  let nd := jobWidth nonceMin nonceMax
  if nd > 0 then
    some ((parJobsLoop buf target nd 20 nonceMin).modify 19 fun job => { job with max := nonceMax })
  else none

/-! ## The jobs tile the range -/

def FindNonceWorkerJob.nonces (job : FindNonceWorkerJob) : Set UInt32 :=
  {nonce | job.min ≤ nonce ∧ nonce ≤ job.max}

def FindNonceWorkerJob.first (job : FindNonceWorkerJob) : Nat := job.min.toNat

def FindNonceWorkerJob.behind (job : FindNonceWorkerJob) : Nat := job.max.toNat + 1

theorem mem_nonces_iff (job : FindNonceWorkerJob) (nonce : UInt32) :
    nonce ∈ job.nonces ↔ nonce.toNat ∈ Set.Ico job.first job.behind := by
  simp only [FindNonceWorkerJob.nonces, Set.mem_ofPred_eq, Set.mem_Ico, FindNonceWorkerJob.first,
    FindNonceWorkerJob.behind, UInt32.le_iff_toNat_le, Nat.lt_succ_iff]

theorem jobWidth_toNat (nonceMin nonceMax : UInt32) (order : nonceMin ≤ nonceMax) :
    (jobWidth nonceMin nonceMax).toNat = (nonceMax.toNat - nonceMin.toNat + 1) / 20 := by
  have below := UInt32.le_iff_toNat_le.mp order
  have bound := nonceMax.toNat_lt
  have difference : (nonceMax.toUInt64 - nonceMin.toUInt64).toNat =
      nonceMax.toNat - nonceMin.toNat := by
    rw [UInt64.toNat_sub_of_le, UInt32.toNat_toUInt64, UInt32.toNat_toUInt64]
    rw [UInt64.le_iff_toNat_le, UInt32.toNat_toUInt64, UInt32.toNat_toUInt64]
    exact below
  rw [jobWidth, UInt64.toNat_toUInt32, UInt64.toNat_div, UInt64.toNat_add, difference]
  simp only [UInt64.reduceToNat]
  omega

variable {buf : List UInt8} {target : BcHash32} {nd nonceMin nonceMax : UInt32}

theorem parJobsLoop_length (count : Nat) (n : UInt32) :
    (parJobsLoop buf target nd count n).length = count := by
  induction count generalizing n with
  | zero => rfl
  | succ count inductionHypothesis => rw [parJobsLoop, List.length_cons, inductionHypothesis]

theorem tiles_job {jobs : List FindNonceWorkerJob} {stop : Nat} (job : FindNonceWorkerJob)
    (nonempty : job.min.toNat < job.max.toNat + 1)
    (rest : Tiles FindNonceWorkerJob.first FindNonceWorkerJob.behind
      (job.max.toNat + 1) jobs stop) :
    Tiles FindNonceWorkerJob.first FindNonceWorkerJob.behind job.min.toNat (job :: jobs) stop :=
  Tiles.cons nonempty rest

/-- Each job ends where the next one begins as long as the sum of their
widths stays in the range. -/
theorem parJobsLoop_tiles (count : Nat) (n : UInt32) (positive : 0 < nd.toNat)
    (room : n.toNat + (count + 1) * nd.toNat ≤ nonceMax.toNat + 1) :
    Tiles FindNonceWorkerJob.first FindNonceWorkerJob.behind n.toNat
      ((parJobsLoop buf target nd (count + 1) n).modify count fun job =>
        { job with max := nonceMax })
      (nonceMax.toNat + 1) := by
  induction count generalizing n with
  | zero =>
    have nonempty : n.toNat < nonceMax.toNat + 1 := by omega
    exact tiles_job ⟨buf, n, nonceMax, target⟩ nonempty (Tiles.nil _)
  | succ count inductionHypothesis =>
    have bound := nonceMax.toNat_lt
    rw [Nat.succ_mul] at room
    have some : 0 < (count + 1) * nd.toNat := Nat.mul_pos (Nat.succ_pos count) positive
    have one : (1 : UInt32) ≤ nd := UInt32.le_iff_toNat_le.mpr (Nat.succ_le_of_lt positive)
    -- so that neither the start of the next job nor the end of this one wraps
    have next : (n + nd).toNat = n.toNat + nd.toNat := by
      rw [UInt32.toNat_add, Nat.mod_eq_of_lt (by omega)]
    have stop : (n + (nd - 1)).toNat + 1 = n.toNat + nd.toNat := by
      rw [UInt32.toNat_add, UInt32.toNat_sub_of_le _ _ one]
      simp only [UInt32.reduceToNat]
      omega
    have rest := inductionHypothesis (n + nd) (by rw [next]; omega)
    rw [next, ← stop] at rest
    have nonempty : n.toNat < (n + (nd - 1)).toNat + 1 := by omega
    exact tiles_job ⟨buf, n, n + (nd - 1), target⟩ nonempty rest

theorem findNonceParJobs_tiles (buf : List UInt8) (target : BcHash32)
    (span : nonceMin.toNat + 20 ≤ nonceMax.toNat + 1) :
    ∃ jobs, findNonceParJobs buf nonceMin nonceMax target = some jobs ∧ jobs.length = 20 ∧
      Tiles FindNonceWorkerJob.first FindNonceWorkerJob.behind nonceMin.toNat jobs
        (nonceMax.toNat + 1) := by
  have width := jobWidth_toNat nonceMin nonceMax (UInt32.le_iff_toNat_le.mpr (by omega))
  have positive : 0 < (jobWidth nonceMin nonceMax).toNat := by omega
  have some : jobWidth nonceMin nonceMax > 0 := UInt32.lt_iff_toNat_lt.mpr positive
  refine ⟨_, if_pos some, ?_, parJobsLoop_tiles 19 nonceMin positive (by omega)⟩
  rw [List.length_modify, parJobsLoop_length]

theorem tiles_cover {jobs : List FindNonceWorkerJob}
    (tiles : Tiles FindNonceWorkerJob.first FindNonceWorkerJob.behind nonceMin.toNat jobs
      (nonceMax.toNat + 1))
    (nonce : UInt32) :
    (∃ job ∈ jobs, nonce ∈ job.nonces) ↔ nonceMin ≤ nonce ∧ nonce ≤ nonceMax := by
  simp only [mem_nonces_iff]
  rw [tiles.cover nonce.toNat, UInt32.le_iff_toNat_le, UInt32.le_iff_toNat_le, Nat.lt_succ_iff]

/-- The 20 jobs are not empty, do not overlap, and hold all nonces of the range. -/
theorem findNonceParJobs_partition (buf : List UInt8) (nonceMin nonceMax : UInt32)
    (target : BcHash32) (span : nonceMin.toNat + 20 ≤ nonceMax.toNat + 1) :
    ∃ jobs, findNonceParJobs buf nonceMin nonceMax target = some jobs ∧ jobs.length = 20 ∧
      (∀ job ∈ jobs, job.min ≤ job.max) ∧
      jobs.Pairwise (fun first second => ∀ nonce ∈ first.nonces, nonce ∉ second.nonces) ∧
      ∀ nonce, (∃ job ∈ jobs, nonce ∈ job.nonces) ↔ nonceMin ≤ nonce ∧ nonce ≤ nonceMax := by
  obtain ⟨jobs, set, count, tiles⟩ := findNonceParJobs_tiles buf target span
  refine ⟨jobs, set, count, fun job member => ?_, tiles.disjoint.imp fun {first second} apart =>
    ?_, tiles_cover tiles⟩
  · exact UInt32.le_iff_toNat_le.mpr (Nat.lt_succ_iff.mp (tiles.nonempty job member))
  · intro nonce inFirst inSecond
    exact apart nonce.toNat ((mem_nonces_iff first nonce).mp inFirst)
      ((mem_nonces_iff second nonce).mp inSecond)

/-- The full range of 32 bits, where the start wraps behind the last job. -/
theorem findNonceParJobs_partition_full :
    ∃ jobs, findNonceParJobs [] 0 0xFFFFFFFF (Vector.replicate 32 0) = some jobs ∧
      jobs.length = 20 ∧
      ∀ nonce, ∃ job ∈ jobs, nonce ∈ job.nonces := by
  obtain ⟨jobs, set, count, -, -, cover⟩ :=
    findNonceParJobs_partition [] 0 0xFFFFFFFF (Vector.replicate 32 0) (by decide)
  refine ⟨jobs, set, count, fun nonce => (cover nonce).mpr ⟨?_, ?_⟩⟩
  · exact UInt32.le_iff_toNat_le.mpr (Nat.zero_le _)
  · have := nonce.toNat_lt
    rw [UInt32.le_iff_toNat_le]
    simp only [UInt32.reduceToNat]
    omega

end NuLab.FindNonce
