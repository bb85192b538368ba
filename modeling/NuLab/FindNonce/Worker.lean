import NuLab.FindNonce.Agrees
import NuLab.FindNonce.Par

/-! # A worker thread of `find_nonce_par`

`find_nonce_worker_v1` runs `find_nonce_v1` on the buffer of its job.  A step of a thread
goes up to the next label, and touches `FindNonceStopFlag` at most once.  The flag is no
atomic variable, so that a read may miss what another thread has written for as long as it
likes: the environment says which reads see it.
-/

namespace NuLab.FindNonce

open NuLab.Run NuLab.Sha256 NuLab.Solver

def BcInvalidBlockHeader : Int := 2

/-- Where a thread is in `find_nonce_v1`; `found` is behind the loop. -/
inductive FindNonceLabel where
  | entry
  | proc
  | nextNonce
  | found
  | returned (ec : Int)
deriving DecidableEq

def FindNonceLabel.isReturned : FindNonceLabel → Bool
  | .returned _ => true
  | _ => false

/-- What `thrd_join` gets of a thread. -/
def FindNonceLabel.ec : FindNonceLabel → Int
  | .returned ec => ec
  | _ => 0

/-- The job of a thread, whose buffer holds the header `block`, and the
locals of `find_nonce_v1`. -/
structure FindNonceThread where
  job : FindNonceWorkerJob
  block : BcBlockHeader
  ctxBase : Sha256Ctx
  hash : Vector UInt8 32
  nonce : UInt32
  nonceBest : UInt32
  cmpMax : Int
  label : FindNonceLabel

/-- `find_nonce_worker_v1` before its first step. -/
def findNonceWorkerV1 (job : FindNonceWorkerJob) : FindNonceThread where
  job := job
  block := BcBlockHeader.ofImage job.buf
  ctxBase := Sha256Ctx.zero
  hash := Vector.replicate 32 0
  nonce := job.min
  nonceBest := job.min
  cmpMax := INT_MIN
  label := .entry

/-- With the nonce in the block and the hash of the block, behind the comparison. -/
def FindNonceThread.tried (t : FindNonceThread) (hash : Vector UInt8 32) : FindNonceThread :=
  let cmp := i256Compare hash t.job.target
  { t with
    block := withNonce t.block t.nonce
    hash := hash
    nonceBest := if cmp > t.cmpMax then t.nonce else t.nonceBest
    cmpMax := if cmp > t.cmpMax then cmp else t.cmpMax
    label := if cmp ≠ 0 then .nextNonce else .found }

/-- `none`: the thread has returned, or steps outside of an array. -/
def findNonceStep (stopFlag : Bool) (t : FindNonceThread) (seen : Bool) :
    Option (Bool × FindNonceThread) :=
  match t.label with
  | .entry =>
    if t.job.buf.length < 80
      then some (stopFlag, { t with label := .returned BcInvalidBlockHeader })
    else
      (sha256Update (sha256Reset Sha256Ctx.zero).2 t.block.bytes 76).map fun (_, ctxBase) =>
        (stopFlag, { t with ctxBase := ctxBase, label := .proc })
  | .proc =>
    let block := withNonce t.block t.nonce
    match proc t.ctxBase (block.bytes.drop 76) t.hash with
    | none => none
    | some (ec, hash) =>
      if ec ≠ 0 then some (stopFlag, { t with block := block, label := .returned ec })
      else some (stopFlag, t.tried hash)
  | .nextNonce =>
    if t.nonce ≥ t.job.max then
      some (stopFlag,
        { t with block := withNonce t.block t.nonceBest, label := .returned BcNotFound })
    -- a flag that is set need not be seen
    else if stopFlag && seen then some (stopFlag, { t with label := .returned BcCanceled })
    else some (stopFlag, { t with nonce := t.nonce + 1, label := .proc })
  | .found => some (true, { t with label := .returned BcSuccess })
  | .returned _ => none

variable {stopFlag seen : Bool} {t : FindNonceThread}

/-! ## Moves -/

/-- What one step does, by the label of the thread. -/
inductive Moves (stopFlag : Bool) (t : FindNonceThread) : Bool → FindNonceThread → Prop where
  | invalid (label : t.label = .entry) (short : t.job.buf.length < 80) :
      Moves stopFlag t stopFlag { t with label := .returned BcInvalidBlockHeader }
  | begun (label : t.label = .entry) {result : Int × Sha256Ctx}
      (update : sha256Update (sha256Reset Sha256Ctx.zero).2 t.block.bytes 76 = some result) :
      Moves stopFlag t stopFlag { t with ctxBase := result.2, label := .proc }
  | failed (label : t.label = .proc) {ec : Int} {hash : Vector UInt8 32} (error : ec ≠ 0)
      (ran : proc t.ctxBase ((withNonce t.block t.nonce).bytes.drop 76) t.hash = some (ec, hash)) :
      Moves stopFlag t stopFlag { t with block := withNonce t.block t.nonce, label := .returned ec }
  | tried (label : t.label = .proc) {hash : Vector UInt8 32}
      (ran : proc t.ctxBase ((withNonce t.block t.nonce).bytes.drop 76) t.hash = some (0, hash)) :
      Moves stopFlag t stopFlag (t.tried hash)
  | last (label : t.label = .nextNonce) (high : t.job.max ≤ t.nonce) :
      Moves stopFlag t stopFlag
        { t with block := withNonce t.block t.nonceBest, label := .returned BcNotFound }
  | canceled (label : t.label = .nextNonce) (set : stopFlag = true) :
      Moves stopFlag t stopFlag { t with label := .returned BcCanceled }
  | next (label : t.label = .nextNonce) (more : ¬ t.job.max ≤ t.nonce) :
      Moves stopFlag t stopFlag { t with nonce := t.nonce + 1, label := .proc }
  | success (label : t.label = .found) :
    Moves stopFlag t true { t with label := .returned BcSuccess }

theorem findNonceStep_moves {stopFlag seen later : Bool} {t after : FindNonceThread}
    (stepped : findNonceStep stopFlag t seen = some (later, after)) :
    Moves stopFlag t later after := by
  unfold findNonceStep at stepped
  cases label : t.label with
  | entry =>
    simp only [label] at stepped
    split at stepped
    next short =>
      cases stepped
      exact Moves.invalid label short
    next =>
      obtain ⟨result, update, same⟩ := Option.map_eq_some_iff.mp stepped
      cases same
      exact Moves.begun label update
  | proc =>
    simp only [label] at stepped
    split at stepped
    · cases stepped
    next ec hash ran =>
      split at stepped
      next error =>
        cases stepped
        exact Moves.failed label error ran
      next noError =>
        cases stepped
        rw [not_ne_iff.mp noError] at ran
        exact Moves.tried label ran
  | nextNonce =>
    simp only [label] at stepped
    split at stepped
    next high =>
      cases stepped
      exact Moves.last label high
    next more =>
      split at stepped
      next canceled =>
        cases stepped
        exact Moves.canceled label (Bool.and_eq_true_iff.mp canceled).1
      next =>
        cases stepped
        exact Moves.next label more
  | found =>
    simp only [label] at stepped
    cases stepped
    exact Moves.success label
  | returned ec => simp [label] at stepped

/-! ## One thread alone -/

def aloneStep (s : Bool × FindNonceThread) (seen : Bool) : Option (Bool × FindNonceThread) :=
  findNonceStep s.1 s.2 seen

theorem run_alone {s next last : Bool × FindNonceThread} {steps : Nat}
    (stepped : aloneStep s true = some next)
    (rest : run aloneStep id next (List.replicate steps true) = some last) :
    run aloneStep id s (List.replicate (steps + 1) true) = some last := by
  rw [List.replicate_succ, run, stepped]
  exact rest

theorem aloneStep_proc {hash : Vector UInt8 32} (label : t.label = .proc)
    (hashed : proc t.ctxBase ((withNonce t.block t.nonce).bytes.drop 76) t.hash = some (0, hash))
    (stopFlag : Bool) : aloneStep (stopFlag, t) true = some (stopFlag, t.tried hash) := by
  simp [aloneStep, findNonceStep, label, hashed]

theorem aloneStep_last (label : t.label = .nextNonce) (high : t.job.max ≤ t.nonce) :
    aloneStep (stopFlag, t) true =
      some (stopFlag,
        { t with block := withNonce t.block t.nonceBest, label := .returned BcNotFound }) := by
  simp [aloneStep, findNonceStep, label, high]

theorem aloneStep_canceled (label : t.label = .nextNonce) (more : ¬ t.job.max ≤ t.nonce) :
    aloneStep (true, t) true = some (true, { t with label := .returned BcCanceled }) := by
  simp only [aloneStep, findNonceStep, label, ge_iff_le, more, if_false, Bool.and_self, if_true]

theorem aloneStep_next (label : t.label = .nextNonce) (more : ¬ t.job.max ≤ t.nonce) :
    aloneStep (false, t) true = some (false, { t with nonce := t.nonce + 1, label := .proc }) := by
  simp only [aloneStep, findNonceStep, label, ge_iff_le, more, if_false, Bool.false_and,
    Bool.false_eq_true]

theorem aloneStep_found (label : t.label = .found) :
    aloneStep (stopFlag, t) true = some (true, { t with label := .returned BcSuccess }) := by
  simp [aloneStep, findNonceStep, label]

/-- Without other threads, and when it sees the flag, a thread does what the loop does. -/
theorem findNonceLoop_steps (stopFlag : Bool) (t : FindNonceThread) {ec : Int}
    {after : BcBlockHeader} {later : Bool} (label : t.label = .proc)
    (ran : findNonceLoop t.ctxBase t.job.target t.job.max stopFlag t.block t.hash t.nonce
      t.nonceBest t.cmpMax =
      some (ec, after, later)) :
    ∃ steps final,
      run aloneStep id (stopFlag, t) (List.replicate steps true) = some (later, final) ∧
      final.label = .returned ec ∧ final.block = after := by
  rw [findNonceLoop] at ran
  cases hashed : proc t.ctxBase ((withNonce t.block t.nonce).bytes.drop 76) t.hash with
  | none => simp [hashed] at ran
  | some result =>
    obtain ⟨error, hash⟩ := result
    simp only [hashed] at ran
    by_cases failed : error ≠ 0
    · rw [if_pos failed] at ran
      cases ran
      have stepped : aloneStep (stopFlag, t) true =
          some (stopFlag,
            { t with block := withNonce t.block t.nonce, label := .returned ec }) := by
        simp [aloneStep, findNonceStep, label, hashed, failed]
      exact ⟨1, _, run_alone stepped rfl, rfl, rfl⟩
    · obtain rfl := not_ne_iff.mp failed
      rw [if_neg failed] at ran
      have stepped := aloneStep_proc (t := t) label hashed
      by_cases equal : i256Compare hash t.job.target = 0
      · have found : (t.tried hash).label = .found := if_neg (not_ne_iff.mpr equal)
        rw [if_neg (not_ne_iff.mpr equal)] at ran
        cases ran
        exact ⟨2, _, run_alone (stepped stopFlag) (run_alone (aloneStep_found found) rfl), rfl, rfl⟩
      · have nextNonce : (t.tried hash).label = .nextNonce := if_pos equal
        rw [if_pos equal] at ran
        by_cases last : t.nonce ≥ t.job.max
        · rw [dif_pos last] at ran
          cases ran
          exact ⟨2, _, run_alone (stepped stopFlag) (run_alone (aloneStep_last nextNonce last) rfl),
            rfl, rfl⟩
        · rw [dif_neg last] at ran
          cases stopFlag with
          | true =>
            cases ran
            exact ⟨2, _,
              run_alone (stepped true) (run_alone (aloneStep_canceled nextNonce last) rfl),
              rfl, rfl⟩
          | false =>
            obtain ⟨steps, final, rest, returned, block⟩ :=
              findNonceLoop_steps false
                { t.tried hash with nonce := t.nonce + 1, label := .proc } rfl ran
            exact ⟨steps + 2, final,
              run_alone (stepped false) (run_alone (aloneStep_next nextNonce last) rest),
              returned, block⟩
termination_by t.job.max.toNat - t.nonce.toNat
decreasing_by
  have order := UInt32.lt_iff_toNat_lt.mp (UInt32.not_le.mp last)
  have next := nonce_succ last
  simp only [FindNonceThread.tried, next]
  omega

/-- Whatever the flag is, a search ends. -/
theorem bcFindNonce_returns (stopFlag : Bool) (call : FindNonceCall) :
    ∃ result, bcFindNonce stopFlag call = some result := by
  obtain ⟨ctxBase, hashed, loop⟩ := bcFindNonce_loop call
  rw [loop]
  cases stopFlag with
  | false =>
    obtain ⟨result, ran, -⟩ := findNonceLoop_fresh _ call.nonceMin call.nonceMin INT_MIN hashed
    exact ⟨result, ran⟩
  | true =>
    by_cases solved : hash256 (withNonce call.block call.nonceMin).bytes = call.target
    · exact ⟨_, findNonceLoop_solved hashed solved⟩
    · by_cases last : call.nonceMax ≤ call.nonceMin
      · obtain ⟨best, ran⟩ := findNonceLoop_last hashed solved last
        exact ⟨_, ran true⟩
      · exact ⟨_, findNonceLoop_canceled hashed solved last⟩

/-- From the start of a thread on, what it returns is what `find_nonce_v1` returns. -/
theorem findNonceWorkerV1_alone (stopFlag : Bool) (job : FindNonceWorkerJob)
    (size : job.buf.length = 80) :
    ∃ ec after later,
      findNonceV1 stopFlag (BcBlockHeader.ofImage job.buf) job.min job.max job.target =
        some (ec, after, later) ∧
      ∃ steps final,
        run aloneStep id (stopFlag, findNonceWorkerV1 job) (List.replicate steps true) =
          some (later, final) ∧ final.label = .returned ec ∧ final.block = after := by
  obtain ⟨⟨ec, after, later⟩, ran⟩ :=
    bcFindNonce_returns stopFlag ⟨BcBlockHeader.ofImage job.buf, job.target, job.min, job.max⟩
  refine ⟨ec, after, later, ran, ?_⟩
  obtain ⟨⟨error, ctxBase⟩, update, loop⟩ := Option.bind_eq_some_iff.mp ran
  have room : ¬ job.buf.length < 80 := by omega
  -- the step from the entry to `proc`, and then two steps for each nonce
  have begun : aloneStep (stopFlag, findNonceWorkerV1 job) true =
      some (stopFlag, { findNonceWorkerV1 job with ctxBase := ctxBase, label := .proc }) := by
    simp only [aloneStep, findNonceStep, findNonceWorkerV1, room, if_false, update, Option.map_some]
  obtain ⟨steps, final, rest, returned, block⟩ :=
    findNonceLoop_steps stopFlag { findNonceWorkerV1 job with ctxBase := ctxBase, label := .proc }
      rfl loop
  exact ⟨steps + 1, final, run_alone begun rest, returned, block⟩

/-- A search for the hash 0 in a header of zeros. -/
theorem findNonceWorkerV1_alone_zero :
    ∃ ec after later,
      findNonceV1 true (BcBlockHeader.ofImage zeroBlock.bytes) 0 7 (Vector.replicate 32 0) =
        some (ec, after, later) ∧
      ∃ steps final,
        run aloneStep id (true, findNonceWorkerV1 ⟨zeroBlock.bytes, 0, 7, Vector.replicate 32 0⟩)
          (List.replicate steps true) = some (later, final) ∧ final.label = .returned ec ∧
            final.block = after :=
  findNonceWorkerV1_alone true ⟨zeroBlock.bytes, 0, 7, Vector.replicate 32 0⟩ zeroBlock.bytes_length

end NuLab.FindNonce
