import NuLab.Builder.Block
import NuLab.Solver.Dry
import NuLab.Solver.Main

/-! # From `main_block_builder.c` to `main_block_solver.c`

A block file of the builder is what the solver starts from.  Whatever the order of the
20 workers' steps, they come to an end, and with a report exactly if one of the nonces
solves the block that was built.
-/

namespace NuLab.Builder

open NuLab.Bytes NuLab.CString NuLab.Run NuLab.Sha256 NuLab.Solver NuLab.While

/-- What is left on the disk at a path. -/
def fileAt (files : List File) (path : List UInt8) : Option (List UInt8) :=
  (files.findRev? (·.1 = path)).map Prod.snd

/-! ## The solver on a header -/

def NonceSolves (header : BcBlockHeader) (nonce : UInt32) : Prop :=
  ofLE (Fips180.sha256 (Fips180.sha256 (withNonce header nonce).bytes)) ≤ compactNumber header.bits

/-- What the workers make of a header, in any order of their steps. -/
structure Mined (header : BcBlockHeader) (pool : FindNonceTaskPool) : Prop where
  bounded : ∃ bound, ∀ (schedule : List (Fin 20)) (final : Process 20),
    run workerStep id (Process.start pool) schedule = some final → schedule.length ≤ bound
  reported : ∀ (schedule : List (Fin 20)) (final : Process 20) (solved : BcBlockHeader),
    run workerStep id (Process.start pool) schedule = some final → final.reported = some solved →
    ∃ nonce, solved = withNonce header nonce ∧ NonceSolves header nonce
  silent : ∀ (schedule : List (Fin 20)) (final : Process 20),
    run workerStep id (Process.start pool) schedule = some final →
      (∀ wid, workerStep final wid = none) →
    final.reported = none → ∀ nonce, ¬ NonceSolves header nonce

theorem solves_iff {header : BcBlockHeader} {target : BcHash32}
    (number : ofLE target.toList = compactNumber header.bits) (nonce : UInt32) :
    Solves target (withNonce header nonce) ↔ NonceSolves header nonce := by
  rw [Solves, NonceSolves, number]

theorem mined {header : BcBlockHeader} {target : BcHash32}
    (number : ofLE target.toList = compactNumber header.bits)
    (below : header.timestamp < 0xFFFFFFFF) : Mined header (taskPool header target) := by
  -- the pool covers the timestamp of the header only
  have last : (taskPool header target).timestampMax = header.timestamp := UInt32.add_zero _
  have early : (taskPool header target).timestampMax < 0xFFFFFFFF := last ▸ below
  have same (nonce : UInt32) : headerAt (taskPool header target) header.timestamp nonce =
      withNonce header nonce := rfl
  have holds {schedule : List (Fin 20)} {final : Process 20}
      (ran : run workerStep id (Process.start (taskPool header target)) schedule = some final) :
      Sound (taskPool header target) final ∧ Complete (taskPool header target) final :=
    run_invariant (fun p => Sound (taskPool header target) p ∧ Complete (taskPool header target) p)
      (fun p wid after holds step => ⟨holds.1.step early step, holds.2.step early holds.1 step⟩) ran
      ⟨Process.start_sound _, Process.start_complete _ rfl⟩
  refine ⟨⟨(Process.start (taskPool header target) : Process 20).potential, ?_⟩, ?_, ?_⟩
  · intro schedule final ran
    have length := run_length_le (fun p : Process 20 => p.pool.timestampMax < 0xFFFFFFFF)
      Process.potential
      (fun p wid after below step => potential_step below step) ran early
    exact Nat.le_trans (Nat.le_add_right _ _) length
  · intro schedule final solved ran reported
    obtain ⟨t, nonce, low, high, rfl, solves⟩ := (holds ran).1.reported solved reported
    rw [last] at high
    obtain rfl : t = header.timestamp := UInt32.le_antisymm high low
    exact ⟨nonce, same nonce, (solves_iff number nonce).mp solves⟩
  · intro schedule final ran stuck silent nonce solves
    -- without a report a worker that has not ended can take a step
    have ended (wid : Fin 20) : final.workers wid = .ended := by
      by_contra running
      obtain ⟨after, step⟩ := workerStep_enabled final wid silent running
      rw [stuck wid] at step
      cases step
    have complete := (holds ran).2
    have done := complete.ended 0 (ended 0)
    rw [last] at done
    -- all nonces have been handed out, so that a solution is with a worker that has not ended
    have handedOut : place header.timestamp nonce < final.pool.cursor :=
      (place_lt_iff _ _ _ _).mpr (Or.inl done)
    have target := (solves_iff number nonce).mpr solves
    obtain ⟨wid, task, here⟩ :=
      complete.covered silent header.timestamp nonce (UInt32.le_refl _) handedOut target
    rw [ended wid] at here
    simp at here

/-! ## The block file -/

/-- A command line that the builder accepts, with a binary file that is not written over and
has room for the header. -/
structure Job where
  pairs : List (Key × List UInt8)
  time : Int64
  disk : Disk
  prevBlock : BcHash32
  prev : prevBlockOf (chosen pairs) = some prevBlock
  path : List UInt8
  obin : (chosen pairs).obin = some path
  apart : (chosen pairs).ohex ≠ some path
  room : Nat
  opened : disk path = some room
  enough : 80 ≤ room

def Job.header (job : Job) : BcBlockHeader := headerFor (chosen job.pairs) job.time job.prevBlock

def Job.files (job : Job) : List File := filesFor job.disk (chosen job.pairs) job.header

theorem fileAt_hexFiles {disk : Disk} {opts : Options} {path : List UInt8}
    (apart : opts.ohex ≠ some path) (header : BcBlockHeader) (files : List File) :
    fileAt (files ++ hexFiles disk opts header) path = fileAt files path := by
  unfold hexFiles save
  cases asked : opts.ohex with
  | none => simp
  | some other =>
    have different : other ≠ path := fun same => apart (by rw [asked, same])
    cases opened : disk other with
    | none => simp [opened]
    | some room => simp [fileAt, opened, different]

theorem Job.fileAt_path (job : Job) :
    fileAt job.files job.path = some ((blockBytes job.header).take job.room) := by
  rw [Job.files, filesFor, fileAt_hexFiles job.apart, binFiles, job.obin]
  simp [fileAt, save, job.opened]

theorem Job.take_header (job : Job) :
    ((blockBytes job.header).take job.room).take 80 = job.header.bytes := by
  rw [List.take_take, Nat.min_eq_left job.enough, blockBytes,
    List.take_left' job.header.bytes_length]

/-- The solver gets the header that was built. -/
theorem Job.solver_main (job : Job) (solver : List UInt8) :
    Solver.main [solver, job.path] (fileAt job.files) =
      (targetOfBits job.header.bits).map fun target => .started (taskPool job.header target) := by
  have large : ¬ ((blockBytes job.header).take job.room).length < 80 := by
    have enough := job.enough
    rw [List.length_take, blockBytes_length]
    omega
  simp only [Solver.main, List.length_cons, List.length_nil, List.getD_cons_succ,
    List.getD_cons_zero, job.fileAt_path, if_neg large, job.take_header,
    BcBlockHeader.ofImage_bytes]
  rfl

/-- The builder ends; from its file the solver starts with the header that was built, and
finds a nonce for it if there is one.  For an exponent below 3 or above 32 it writes
outside of the target. -/
theorem built_mined (job : Job) (prog solver : List UInt8)
    (txid reportTxid block : Nat → Nat → UInt8) (hex : Nat → UInt8) :
    (∃ chunks,
      Ends (main (prog :: written job.pairs) job.time (granted txid reportTxid block hex) job.disk)
      ⟨0, [], chunks, job.files⟩) ∧
    (3 ≤ (bitsExp job.header.bits).toNat ∧ (bitsExp job.header.bits).toNat ≤ 32 →
      job.header.timestamp < 0xFFFFFFFF →
      ∃ pool, Solver.main [solver, job.path] (fileAt job.files) = some (.started pool) ∧
        Mined job.header pool) ∧
    (¬ (3 ≤ (bitsExp job.header.bits).toNat ∧ (bitsExp job.header.bits).toNat ≤ 32) →
      Solver.main [solver, job.path] (fileAt job.files) = none) := by
  obtain ⟨chunks, ends, -⟩ :=
    emit_ends (chosen job.pairs) job.header txid reportTxid block hex job.disk
  rw [main_emit prog job.time txid reportTxid block hex job.disk job.pairs job.prev]
  refine ⟨⟨chunks, ends⟩, fun inside below => ?_, fun outside => ?_⟩
  · obtain ⟨target, found, number⟩ := targetOfBits_inside inside.1 inside.2
    rw [← compactNumber_eq inside.1] at number
    refine ⟨taskPool job.header target, ?_, mined number below⟩
    rw [job.solver_main, found, Option.map_some]
  · rw [job.solver_main, targetOfBits_outside outside, Option.map_none]

/-- A block on top of none, for the target of 0x1D00FFFF. -/
def smallJob : Job where
  pairs := [(.bits, text "1d00ffff"), (.time, text "1"), (.obin, text "a")]
  time := 0
  disk _ := some 1000
  prevBlock := Vector.replicate 32 0
  prev := rfl
  path := text "a"
  obin := rfl
  apart := by decide
  room := 1000
  opened := rfl
  enough := by decide

theorem built_mined_small :
    ∃ pool, Solver.main [[], text "a"] (fileAt smallJob.files) = some (.started pool) ∧
    Mined smallJob.header pool :=
  (built_mined smallJob [] [] (fun _ _ => 0) (fun _ _ => 0) (fun _ _ => 0) fun _ => 0).2.1
    (by decide) (by decide)

end NuLab.Builder
