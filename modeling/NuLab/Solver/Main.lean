import NuLab.Hex.Code
import NuLab.Json.Scan
import NuLab.Solver.Workers

/-! # `main` of `main_block_solver.c`

The usage line names a target, and the command lines with two arguments are accepted;
but the second argument is only read where there are more than two.  The target comes
from the field `bits` of the header.
-/

namespace NuLab.Solver

open NuLab.Bytes NuLab.Hex NuLab.Json NuLab.Run

/-! ## The target of the header -/

def bitsExp (bits : UInt32) : UInt32 := (bits &&& 0xFF000000) >>> 24

def bitsCff (bits : UInt32) : UInt32 := bits &&& 0x00FFFFFF

/-- `target.data[index] = value`; `none` is an index behind the array. -/
def writeTarget (target : BcHash32) (index value : UInt32) : Option BcHash32 :=
  if inside : index.toNat < 32 then some (target.set index.toNat value.toUInt8 inside) else none

def targetOfBits (bits : UInt32) : Option BcHash32 := do
  let target := Vector.replicate 32 0
  let target ← writeTarget target (bitsExp bits - 3) ((bitsCff bits >>> 0) &&& 0xFF)
  let target ← writeTarget target (bitsExp bits - 2) ((bitsCff bits >>> 8) &&& 0xFF)
  writeTarget target (bitsExp bits - 1) ((bitsCff bits >>> 16) &&& 0xFF)

/-! ## The program -/

/-- How `main` goes on behind the command line: it ends, or it starts workers on a pool. -/
inductive Startup where
  | exited (code : Int)
  | started (pool : FindNonceTaskPool)

def nonceChunksValue : UInt32 := 20

theorem nonceChunksValue_pos : 0 < nonceChunksValue := by decide

/-- The initial `task_pool`. -/
def taskPool (header : BcBlockHeader) (target : BcHash32) : FindNonceTaskPool :=
  ⟨header, target, header.timestamp, header.timestamp + 0, 0, nonceChunksValue,
    nonceChunksValue_pos⟩

/-- The string that `opt_target` points to, decoded. -/
def targetOfText (optTarget : List UInt8) : Option (Option BcHash32) :=
  if optTarget.length ≠ BcHashStringSize then some none
  else (bcHash32FromCspan optTarget ⟨0, optTarget.length⟩).map some

/-- The strings of `argv` are without their NULs; `files` holds the files that can be loaded. -/
def main (argv : List (List UInt8)) (files : List UInt8 → Option (List UInt8)) : Option Startup :=
  let argc := argv.length
  if argc ≠ 2 ∧ argc ≠ 3 then some (.exited 1)
  else
    let optFilepath := argv.getD 1 []
    let optTarget := if argc > 3 then argv[2]? else none
    match files optFilepath with
    | none => some (.exited 1)
    | some buf =>
      if buf.length < 80 then some (.exited 1)
      else
        let header := BcBlockHeader.ofImage (buf.take 80)
        match optTarget with
        | some optTarget => (targetOfText optTarget).map fun
          | none => .exited 1
          | some target => .started (taskPool header target)
        | none => (targetOfBits header.bits).map fun target => .started (taskPool header target)

/-! ## The number in `bits` -/

theorem writeTarget_run (front back : List UInt8) (old value : UInt8) (target : BcHash32)
    (index word : UInt32) (place : index.toNat = front.length)
    (content : target.toList = front ++ old :: back) (byte : word.toUInt8 = value) :
    ∃ after, writeTarget target index word = some after ∧
      after.toList = front ++ [value] ++ back := by
  have length := congrArg List.length content
  rw [Vector.length_toList, List.length_append, List.length_cons] at length
  have inside : index.toNat < 32 := by omega
  refine ⟨target.set index.toNat word.toUInt8 inside, dif_pos inside, ?_⟩
  rw [Vector.toList_set, content, place, byte, List.set_append_right _ _ (Nat.le_refl _),
    Nat.sub_self, List.set_cons_zero, List.append_cons]

theorem bitsCff_lt (bits : UInt32) : (bitsCff bits).toNat < 256 ^ 3 := by
  have masked : (bitsCff bits).toNat ≤ 0x00FFFFFF := by
    rw [bitsCff, UInt32.toNat_and]
    exact Nat.and_le_right
  omega

theorem cff_byte (cff shift : UInt32) (bound : shift.toNat < 32) :
    ((cff >>> shift) &&& 0xFF).toUInt8 = UInt8.ofNat (cff.toNat / 2 ^ shift.toNat) := by
  apply UInt8.toNat_inj.mp
  rw [UInt32.toNat_toUInt8, UInt32.toNat_and, UInt32.toNat_shiftRight, Nat.mod_eq_of_lt bound,
    Nat.shiftRight_eq_div_pow,
    UInt8.toNat_ofNat', show (0xFF : UInt32).toNat = 2 ^ 8 - 1 from rfl,
    Nat.and_two_pow_sub_one_eq_mod, Nat.mod_mod]

theorem ofLE_zeros (count : Nat) : ofLE (List.replicate count 0) = 0 := by
  induction count with
  | zero => rfl
  | succ count inductionHypothesis => rw [List.replicate_succ, ofLE, inductionHypothesis]; rfl

/-- The three writes are inside the array, and put the coefficient where the exponent says. -/
theorem targetOfBits_inside {bits : UInt32} (low : 3 ≤ (bitsExp bits).toNat)
    (high : (bitsExp bits).toNat ≤ 32) :
    ∃ target, targetOfBits bits = some target ∧
      ofLE target.toList = (bitsCff bits).toNat * 256 ^ ((bitsExp bits).toNat - 3) := by
  have index (k : UInt32) (few : k.toNat ≤ 3) : (bitsExp bits - k).toNat =
    (bitsExp bits).toNat - k.toNat :=
    UInt32.toNat_sub_of_le _ _ (UInt32.le_iff_toNat_le.mpr (Nat.le_trans few low))
  obtain ⟨before, position⟩ := Nat.exists_eq_add_of_le low
  obtain ⟨behind, rest⟩ := Nat.exists_eq_add_of_le high
  have zeros : (Vector.replicate 32 (0 : UInt8)).toList =
      List.replicate before 0 ++ 0 :: 0 :: 0 :: List.replicate behind 0 := by
    rw [Vector.toList_replicate, ← List.replicate_succ, ← List.replicate_succ,
      ← List.replicate_succ, List.replicate_append_replicate]
    congr 1
    omega
  obtain ⟨first, firstRun, firstList⟩ :=
    writeTarget_run (List.replicate before 0) _ 0 _ _ (bitsExp bits - 3)
    ((bitsCff bits >>> 0) &&& 0xFF)
    (by rw [index 3 (by decide), position, List.length_replicate]; simp) zeros rfl
  obtain ⟨second, secondRun, secondList⟩ := writeTarget_run _ _ 0 _ first (bitsExp bits - 2)
    ((bitsCff bits >>> 8) &&& 0xFF) (by rw [index 2 (by decide), position]; simp; omega)
      firstList rfl
  obtain ⟨third, thirdRun, thirdList⟩ := writeTarget_run _ _ 0 _ second (bitsExp bits - 1)
    ((bitsCff bits >>> 16) &&& 0xFF) (by rw [index 1 (by decide), position]; simp; omega)
      secondList rfl
  refine ⟨third,
    by simp only [targetOfBits, firstRun, secondRun, thirdRun, Option.bind_eq_bind,
      Option.bind_some], ?_⟩
  -- the three bytes are the coefficient, least significant first
  have coefficient :
    [((bitsCff bits >>> 0) &&& 0xFF).toUInt8, ((bitsCff bits >>> 8) &&& 0xFF).toUInt8,
      ((bitsCff bits >>> 16) &&& 0xFF).toUInt8] = toLE 3 (bitsCff bits).toNat := by
    rw [cff_byte _ 0 (by decide), cff_byte _ 8 (by decide), cff_byte _ 16 (by decide)]
    simp [toLE, Nat.div_div_eq_div_mul]
  have list : third.toList = List.replicate before 0 ++
      (toLE 3 (bitsCff bits).toNat ++ List.replicate behind 0) := by
    rw [thirdList, ← coefficient]
    simp
  rw [list, ofLE_append, ofLE_append, ofLE_zeros, ofLE_zeros, ofLE_toLE_of_lt (bitsCff_lt bits),
    List.length_replicate, position, Nat.add_sub_cancel_left, Nat.mul_zero, Nat.add_zero,
    Nat.zero_add, Nat.mul_comm]

theorem writeTarget_outside {target : BcHash32} {index value : UInt32}
    (outside : 32 ≤ index.toNat) : writeTarget target index value = none :=
  dif_neg (Nat.not_lt.mpr outside)

theorem targetOfBits_outside {bits : UInt32}
    (outside : ¬ (3 ≤ (bitsExp bits).toNat ∧ (bitsExp bits).toNat ≤ 32)) :
    targetOfBits bits = none := by
  have bound := (bitsExp bits).toNat_lt
  unfold targetOfBits
  by_cases low : 3 ≤ (bitsExp bits).toNat
  · have last : (bitsExp bits - 1).toNat = (bitsExp bits).toNat - 1 :=
      UInt32.toNat_sub_of_le _ _ (UInt32.le_iff_toNat_le.mpr (Nat.le_trans (by decide) low))
    have outside : ∀ target value, writeTarget target (bitsExp bits - 1) value = none :=
      fun target value => writeTarget_outside (by omega)
    simp only [outside, Option.bind_eq_bind, Option.bind_fun_none]
  · -- the first index wraps around
    have first : 32 ≤ (bitsExp bits - 3).toNat := by
      rw [UInt32.toNat_sub]
      simp only [UInt32.reduceToNat]
      omega
    simp only [writeTarget_outside first, Option.bind_eq_bind, Option.bind_none]

/-- The number that `bits` stand for: the coefficient times 256 to the exponent
less 3, rounded down. -/
def compactNumber (bits : UInt32) : Nat :=
  (bitsCff bits).toNat * 256 ^ (bitsExp bits).toNat / 256 ^ 3

/-- Every write is inside the array, which gets the number of `bits` if it has room for it. -/
def ExpandsTarget (bits : UInt32) : Prop :=
  ∃ target, targetOfBits bits = some target ∧
    (compactNumber bits < 2 ^ 256 → ofLE target.toList = compactNumber bits)

theorem compactNumber_eq {bits : UInt32} (low : 3 ≤ (bitsExp bits).toNat) :
    compactNumber bits = (bitsCff bits).toNat * 256 ^ ((bitsExp bits).toNat - 3) := by
  obtain ⟨more, exponent⟩ := Nat.exists_eq_add_of_le low
  rw [compactNumber, exponent, Nat.add_sub_cancel_left, Nat.pow_add, Nat.mul_left_comm,
    Nat.mul_div_cancel_left _ (Nat.pow_pos (by decide))]

/-- The compact form is expanded exactly for the exponents from 3 to 32. -/
theorem targetOfBits_expands_iff (bits : UInt32) :
    ExpandsTarget bits ↔ 3 ≤ (bitsExp bits).toNat ∧ (bitsExp bits).toNat ≤ 32 := by
  constructor
  · intro expands
    obtain ⟨target, found, -⟩ := expands
    by_contra outside
    rw [targetOfBits_outside outside] at found
    cases found
  · intro inside
    obtain ⟨target, found, number⟩ := targetOfBits_inside inside.1 inside.2
    refine ⟨target, found, fun _ => ?_⟩
    rw [number, compactNumber_eq inside.1]

/-- The number of these `bits` is 4, but the first index wraps around. -/
theorem targetOfBits_wraps : ¬ ∀ bits : UInt32, bits &&& 0x00800000 = 0 → ExpandsTarget bits := by
  intro always
  obtain ⟨target, found, -⟩ := always 0x01040000 (by decide)
  rw [targetOfBits_outside (by decide)] at found
  cases found

/-! ## What the workers compare with -/

variable {count : Nat}

/-- The pool and all tasks that have been handed out have one target. -/
structure Aimed (target : BcHash32) (p : Process count) : Prop where
  pool : p.pool.target = target
  searching : ∀ wid task, p.workers wid = .searching task → task.target = target

theorem Aimed.setWorker {target : BcHash32} {p : Process count} (aimed : Aimed target p)
    (wid : Fin count) {state : WorkerState}
    (searching : ∀ task, state = .searching task → task.target = target) :
    Aimed target (p.setWorker wid state) where
  pool := aimed.pool
  searching other task here := by
    cases setWorker_cases here with
    | inl new => exact searching task new
    | inr old => exact aimed.searching other task old

theorem Aimed.step {target : BcHash32} {p after : Process count} {wid : Fin count}
    (aimed : Aimed target p) (step : workerStep p wid = some after) : Aimed target after := by
  obtain ⟨-, ⟨-, -, rfl⟩ | ⟨task, pool, -, -, handed, rfl⟩ | ⟨task, m, -, -, -, -, rfl⟩ |
    ⟨task, -, -, rfl⟩ |
    ⟨task, -, rfl⟩⟩ := workerStep_cases step
  · exact aimed.setWorker wid (fun _ here => by cases here)
  · have samePool : pool.target = p.pool.target := by rw [handed.same]
    have moved : Aimed target { p with pool := pool } :=
      ⟨samePool.trans aimed.pool, aimed.searching⟩
    apply moved.setWorker wid
    intro next here
    cases here
    exact handed.target.trans aimed.pool
  · exact aimed.setWorker wid (fun _ here => by cases here)
  · exact aimed.setWorker wid (fun _ here => by cases here)
  · exact ⟨aimed.pool, aimed.searching⟩

/-- In every state the 20 workers can reach, each search compares with this number. -/
def ComparesWith (pool : FindNonceTaskPool) (number : Nat) : Prop :=
  ∀ (schedule : List (Fin 20)) (final : Process 20) (wid : Fin 20) (task : FindNonceTask),
    run workerStep id (Process.start pool) schedule = some final →
      final.workers wid = .searching task →
      ofLE task.target.toList = number

theorem comparesWith_iff {header : BcBlockHeader} {target : BcHash32} {number : Nat} :
    ComparesWith (taskPool header target) number ↔ ofLE target.toList = number := by
  constructor
  · intro compares
    -- the first worker gets a task, as the pool starts below its last timestamp
    have active : (taskPool header target).timestamp ≤ (taskPool header target).timestampMax := by
      rw [taskPool, UInt32.add_zero]
      exact UInt32.le_refl _
    obtain ⟨task, pool, call, handed⟩ := findNonceNextTask_handed (taskPool header target) active
    have step : workerStep (Process.start (taskPool header target) : Process 20) 0 =
        some ({ (Process.start (taskPool header target) : Process 20) with pool :=
          pool }.setWorker 0
          (.searching task)) := by
      simp only [workerStep, Process.start, call]
      rfl
    have same := compares [0] _ 0 task (by rw [run, step, Option.bind_some]; rfl)
      (setWorker_self _ 0 _)
    rw [handed.target] at same
    exact same
  · intro same schedule final wid task ran searching
    have aimed : Aimed target final :=
      run_invariant (Aimed target) (fun p wid after aimed step => aimed.step step) ran
      ⟨rfl, fun _ _ here => by cases here⟩
    rw [aimed.searching wid task searching]
    exact same

/-! ## The target of the command line -/

/-- The number that hexadecimal digits write, the most significant one first. -/
def hexNumber (digits : List UInt8) : Nat :=
  digits.foldl (fun number char => 16 * number + (bcHexCharMap char).toNat) 0

/-- A command line with a target, and the files that can be loaded: the first argument
names one with a header. -/
structure TargetGiven where
  prog : List UInt8
  path : List UInt8
  digits : List UInt8
  length : digits.length = 64
  hex : ∀ char ∈ digits, char ∈ hexDigits
  files : List UInt8 → Option (List UInt8)
  content : List UInt8
  file : files path = some content
  header : 80 ≤ content.length

def TargetGiven.argv (given : TargetGiven) : List (List UInt8) :=
  [given.prog, given.path, given.digits]

/-- `header.bits` -/
def TargetGiven.bits (given : TargetGiven) : UInt32 :=
  (BcBlockHeader.ofImage (given.content.take 80)).bits

/-- The workers start, and compare with the number of the command line. -/
def Obeys (given : TargetGiven) : Prop :=
  ∃ pool, main given.argv given.files = some (.started pool) ∧
    ComparesWith pool (hexNumber given.digits)

/-- The second argument is not read. -/
theorem main_given (given : TargetGiven) :
    main given.argv given.files = (targetOfBits given.bits).map fun target =>
      .started (taskPool (BcBlockHeader.ofImage (given.content.take 80)) target) := by
  have large : ¬ given.content.length < 80 := Nat.not_lt.mpr given.header
  simp only [main, TargetGiven.argv, List.length_cons, List.length_nil, List.getD_cons_succ,
    List.getD_cons_zero, given.file, if_neg large]
  rfl

/-- The workers compare with the number of the command line only where the header's `bits`
stand for the same one. -/
theorem main_obeys_iff (given : TargetGiven) :
    Obeys given ↔ 3 ≤ (bitsExp given.bits).toNat ∧ (bitsExp given.bits).toNat ≤ 32 ∧
      hexNumber given.digits = (bitsCff given.bits).toNat *
        256 ^ ((bitsExp given.bits).toNat - 3) := by
  unfold Obeys
  rw [main_given given]
  by_cases inside : 3 ≤ (bitsExp given.bits).toNat ∧ (bitsExp given.bits).toNat ≤ 32
  · obtain ⟨target, found, number⟩ := targetOfBits_inside inside.1 inside.2
    rw [found, Option.map_some]
    constructor
    · rintro ⟨pool, started, compares⟩
      cases started
      rw [← comparesWith_iff.mp compares, number]
      exact ⟨inside.1, inside.2, rfl⟩
    · rintro ⟨-, -, same⟩
      exact ⟨_, rfl, comparesWith_iff.mpr (number.trans same.symm)⟩
  · rw [targetOfBits_outside inside, Option.map_none]
    constructor
    · rintro ⟨pool, started, -⟩
      cases started
    · rintro ⟨low, high, -⟩
      exact absurd ⟨low, high⟩ inside

/-- 64 zeros on the command line, and a header whose `bits` are 0x1D00FFFF. -/
def zeroTarget : TargetGiven where
  prog := [0x78]
  path := [0x79]
  digits := List.replicate 64 48
  length := List.length_replicate
  hex char member := by
    rw [List.eq_of_mem_replicate member]
    decide
  files path :=
    if path = [0x79] then some ((List.replicate 72 0) ++ [0xFF, 0xFF, 0, 0x1D, 0, 0, 0, 0])
    else none
  content := List.replicate 72 0 ++ [0xFF, 0xFF, 0, 0x1D, 0, 0, 0, 0]
  file := if_pos rfl
  header := by decide

/-- The target 0 is replaced by that of the header. -/
theorem main_disobeys : ¬ ∀ given, Obeys given := by
  intro always
  obtain ⟨pool, started, compares⟩ := always zeroTarget
  have low : 3 ≤ (bitsExp zeroTarget.bits).toNat := by decide
  obtain ⟨target, found, number⟩ := targetOfBits_inside low (by decide)
  rw [main_given, found] at started
  cases started
  have same := number.symm.trans (comparesWith_iff.mp compares)
  revert same
  decide

end NuLab.Solver
