import NuLab.FindNonce.Code
import NuLab.Lib.Run

/-! # Searches one after the other

A search that succeeds sets the flag for good.  From then on a search gives up behind
the first nonce of its range, unless it was done there.
-/

namespace NuLab.FindNonce

open NuLab.Bytes NuLab.Run NuLab.Sha256 NuLab.Solver

/-- The first nonce of the range solves the block: its hash is the target. -/
def FirstSolves (call : FindNonceCall) : Prop :=
  hash256 (withNonce call.block call.nonceMin).bytes = call.target

/-! ## One round of the loop -/

theorem i256Compare_eq_zero_iff (lhs rhs : Vector UInt8 32) :
    i256Compare lhs rhs = 0 ↔ lhs = rhs := by
  obtain ⟨positive, negative⟩ := i256Compare_sign lhs rhs
  constructor
  · intro zero
    have same : ofLE lhs.toList = ofLE rhs.toList := by omega
    exact ofLE_inj same
  · rintro rfl
    omega

variable {ctxBase : Sha256Ctx} {expect : BcHash32} {nonceMax : UInt32} {stopFlag : Bool}
  {block : BcBlockHeader}
  {hash : Vector UInt8 32} {nonce nonceBest : UInt32} {cmpMax : Int}

/-- One round, with the hash as its value. -/
theorem findNonceLoop_round (hashed : Hashed ctxBase (front block)) :
    findNonceLoop ctxBase expect nonceMax stopFlag block hash nonce nonceBest cmpMax =
      let cmp := i256Compare (hash256 (withNonce block nonce).bytes) expect
      let nonceBest := if cmp > cmpMax then nonce else nonceBest
      if cmp ≠ 0 then
        if nonceMax ≤ nonce then some (BcNotFound, withNonce block nonceBest, stopFlag)
        else if stopFlag then some (BcCanceled, withNonce block nonce, stopFlag)
        else findNonceLoop ctxBase expect nonceMax stopFlag (withNonce block nonce)
          (hash256 (withNonce block nonce).bytes) (nonce + 1) nonceBest
            (if cmp > cmpMax then cmp else cmpMax)
      else some (BcSuccess, withNonce block nonce, true) := by
  have same : Hashed ctxBase (front (withNonce block nonce)) := hashed
  rw [findNonceLoop, proc_hash256 same]
  rfl

theorem findNonceLoop_solved (hashed : Hashed ctxBase (front block))
    (solved : hash256 (withNonce block nonce).bytes = expect) :
    findNonceLoop ctxBase expect nonceMax stopFlag block hash nonce nonceBest cmpMax =
      some (BcSuccess, withNonce block nonce, true) := by
  have zero := (i256Compare_eq_zero_iff _ _).mpr solved
  rw [findNonceLoop_round hashed]
  simp only [zero, ne_eq, not_true, if_false]

/-- Behind the last nonce the flag is not looked at. -/
theorem findNonceLoop_last (hashed : Hashed ctxBase (front block))
    (unsolved : hash256 (withNonce block nonce).bytes ≠ expect) (last : nonceMax ≤ nonce) :
    ∃ best, ∀ stopFlag, findNonceLoop ctxBase expect nonceMax stopFlag block hash nonce
      nonceBest cmpMax =
      some (BcNotFound, withNonce block best, stopFlag) := by
  have nonzero := mt (i256Compare_eq_zero_iff _ _).mp unsolved
  refine ⟨if i256Compare (hash256 (withNonce block nonce).bytes) expect >
    cmpMax then nonce else nonceBest, ?_⟩
  intro stopFlag
  rw [findNonceLoop_round hashed]
  simp only [ne_eq, nonzero, not_false_eq_true, if_true, last]

theorem findNonceLoop_canceled (hashed : Hashed ctxBase (front block))
    (unsolved : hash256 (withNonce block nonce).bytes ≠ expect) (more : ¬ nonceMax ≤ nonce) :
    findNonceLoop ctxBase expect nonceMax true block hash nonce nonceBest cmpMax =
      some (BcCanceled, withNonce block nonce, true) := by
  have nonzero := mt (i256Compare_eq_zero_iff _ _).mp unsolved
  rw [findNonceLoop_round hashed]
  simp only [ne_eq, nonzero, not_false_eq_true, if_true, more, if_false]

theorem findNonceLoop_next (hashed : Hashed ctxBase (front block))
    (unsolved : hash256 (withNonce block nonce).bytes ≠ expect) (more : ¬ nonceMax ≤ nonce) :
    Hashed ctxBase (front (withNonce block nonce)) ∧ ∃ hash' best cmp,
      findNonceLoop ctxBase expect nonceMax false block hash nonce nonceBest cmpMax =
        findNonceLoop ctxBase expect nonceMax false (withNonce block nonce) hash'
          (nonce + 1) best cmp := by
  have nonzero := mt (i256Compare_eq_zero_iff _ _).mp unsolved
  let cmp := i256Compare (hash256 (withNonce block nonce).bytes) expect
  refine ⟨hashed, hash256 (withNonce block nonce).bytes, if cmp > cmpMax then nonce else nonceBest,
    if cmp > cmpMax then cmp else cmpMax, ?_⟩
  rw [findNonceLoop_round hashed]
  simp only [cmp, ne_eq, nonzero, not_false_eq_true, if_true, more, if_false, Bool.false_eq_true]

/-- In front of the last nonce the next one does not wrap. -/
theorem nonce_succ (more : ¬ nonceMax ≤ nonce) : (nonce + 1).toNat = nonce.toNat + 1 := by
  have order := UInt32.lt_iff_toNat_lt.mp (UInt32.not_le.mp more)
  have := nonceMax.toNat_lt
  rw [UInt32.toNat_add]
  simp only [UInt32.reduceToNat]
  omega

/-- With the flag clear a search ends, and it is not canceled. -/
theorem findNonceLoop_fresh {block : BcBlockHeader} (hash : Vector UInt8 32)
    (nonce nonceBest : UInt32) (cmpMax : Int) (hashed : Hashed ctxBase (front block)) :
    ∃ result,
      findNonceLoop ctxBase expect nonceMax false block hash nonce nonceBest cmpMax = some result ∧
      result.1 ≠ BcCanceled := by
  by_cases solved : hash256 (withNonce block nonce).bytes = expect
  · exact ⟨_, findNonceLoop_solved hashed solved, show BcSuccess ≠ BcCanceled by decide⟩
  · by_cases last : nonceMax ≤ nonce
    · obtain ⟨best, run⟩ := findNonceLoop_last hashed solved last
      exact ⟨_, run false, show BcNotFound ≠ BcCanceled by decide⟩
    · obtain ⟨same, hash', best, cmp, round⟩ := findNonceLoop_next hashed solved last
      rw [round]
      exact findNonceLoop_fresh hash' (nonce + 1) best cmp same
termination_by nonceMax.toNat - nonce.toNat
decreasing_by
  have order := UInt32.lt_iff_toNat_lt.mp (UInt32.not_le.mp last)
  rw [nonce_succ last]
  omega

/-! ## One call -/

theorem bcFindNonce_loop (call : FindNonceCall) :
    ∃ ctxBase, Hashed ctxBase (front call.block) ∧ ∀ stopFlag, bcFindNonce stopFlag call =
      findNonceLoop ctxBase call.target call.nonceMax stopFlag call.block
        (Vector.replicate 32 0) call.nonceMin
        call.nonceMin INT_MIN := by
  obtain ⟨ctxBase, update, hashed⟩ := front_hashed call.block
  refine ⟨ctxBase, hashed, fun stopFlag => ?_⟩
  simp only [bcFindNonce, findNonceV1, update, Option.bind_eq_bind, Option.bind_some]

/-- Return code and block are those of the same call in a fresh process. -/
def AsFresh (_ : Bool) (call : FindNonceCall) (result : Int × BcBlockHeader × Bool) : Prop :=
  ∃ stopFlag, bcFindNonce false call = some (result.1, result.2.1, stopFlag)

/-- The flag is clear, or the search would not get to it. -/
def Unaffected (stopFlag : Bool) (call : FindNonceCall) : Prop :=
  stopFlag = false ∨ call.nonceMax ≤ call.nonceMin ∨ FirstSolves call

theorem bcFindNonce_asFresh {stopFlag : Bool} {call : FindNonceCall}
    (unaffected : Unaffected stopFlag call) :
    ∃ result, bcFindNonce stopFlag call = some result ∧ AsFresh stopFlag call result := by
  obtain ⟨ctxBase, hashed, loop⟩ := bcFindNonce_loop call
  by_cases solved : FirstSolves call
  · exact ⟨_, (loop stopFlag).trans (findNonceLoop_solved hashed solved), true,
      (loop false).trans (findNonceLoop_solved hashed solved)⟩
  · by_cases last : call.nonceMax ≤ call.nonceMin
    · obtain ⟨best, run⟩ := findNonceLoop_last hashed solved last
      exact ⟨_, (loop stopFlag).trans (run stopFlag), false, (loop false).trans (run false)⟩
    · obtain rfl : stopFlag = false := unaffected.resolve_right (not_or.mpr ⟨last, solved⟩)
      obtain ⟨result, run, -⟩ := findNonceLoop_fresh _ _ _ _ hashed
      exact ⟨result, (loop false).trans run, result.2.2, (loop false).trans run⟩

theorem unaffected_of_asFresh {stopFlag : Bool} {call : FindNonceCall}
    {result : Int × BcBlockHeader × Bool} (run : bcFindNonce stopFlag call = some result)
    (same : AsFresh stopFlag call result) :
    Unaffected stopFlag call := by
  by_contra affected
  obtain ⟨set, more, unsolved⟩ : stopFlag = true ∧ ¬ call.nonceMax ≤ call.nonceMin ∧
      ¬ FirstSolves call := by
    simpa [Unaffected] using affected
  obtain ⟨ctxBase, hashed, loop⟩ := bcFindNonce_loop call
  obtain ⟨after, fresh⟩ := same
  obtain ⟨result', run', notCanceled⟩ := findNonceLoop_fresh _ _ _ _ hashed
  rw [loop, run', Option.some.injEq] at fresh
  rw [loop, set, findNonceLoop_canceled hashed unsolved more, Option.some.injEq] at run
  -- the search was canceled here, and not in the fresh process
  rw [fresh, ← run] at notCanceled
  exact notCanceled rfl

/-! ## Sequences of calls -/

/-- The calls of a process answer like those of fresh processes exactly when each of them finds the
flag clear or does not get to it. -/
theorem findNonce_history_iff (calls : List FindNonceCall) :
    AllSteps bcFindNonce (fun result => result.2.2) AsFresh false calls ↔
      Along bcFindNonce (fun result => result.2.2) Unaffected false calls := by
  have stepRule : ∀ stopFlag call, True → Unaffected stopFlag call →
      ∃ result, bcFindNonce stopFlag call = some result ∧ AsFresh stopFlag call result ∧ True := by
    intro stopFlag call _ unaffected
    obtain ⟨result, run, same⟩ := bcFindNonce_asFresh unaffected
    exact ⟨result, run, same, trivial⟩
  exact along_iff_allSteps stepRule (fun _ _ _ _ run same => unaffected_of_asFresh run same)
    false calls trivial

def zeroBlock : BcBlockHeader := ⟨0, Vector.replicate 32 0, Vector.replicate 32 0, 0, 0, 0⟩

/-- A search for the hash of a header of zeros, and one for the hash 0 with two nonces. -/
def successThenSearch : List FindNonceCall :=
  [⟨zeroBlock, hash256 zeroBlock.bytes, 0, 0⟩, ⟨zeroBlock, Vector.replicate 32 0, 0, 1⟩]

theorem hash256_ne {bytes : List UInt8} {digest : BcHash32}
    (unequal : Fips180.sha256 (Fips180.sha256 bytes) ≠ digest.toList) : hash256 bytes ≠ digest := by
  intro same
  have lists := congrArg Vector.toList same
  rw [hash256, Vector.toList_mk, List.toList_toArray] at lists
  exact unequal lists

theorem hash256_zeroBlock : hash256 zeroBlock.bytes ≠ Vector.replicate 32 0 :=
  hash256_ne (by decide +kernel)

/-- The second search of `successThenSearch` is canceled. -/
theorem findNonce_remembers :
    ¬ ∀ calls, AllSteps bcFindNonce (fun result => result.2.2) AsFresh false calls := by
  intro always
  obtain ⟨first, firstRun, -, second, secondRun, same, -⟩ := always successThenSearch
  obtain ⟨ctxBase, hashed, loop⟩ := bcFindNonce_loop ⟨zeroBlock, hash256 zeroBlock.bytes, 0, 0⟩
  have solved := (loop false).trans (findNonceLoop_solved hashed rfl)
  obtain rfl := Option.some.inj (firstRun.symm.trans solved)
  obtain set | empty | solves := unaffected_of_asFresh secondRun same
  · cases set
  · exact absurd empty (by decide)
  · exact hash256_zeroBlock solves

end NuLab.FindNonce
