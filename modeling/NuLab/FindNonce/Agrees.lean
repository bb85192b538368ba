import NuLab.FindNonce.History

/-! # `bc_find_nonce` against `find_nonce`

`find_nonce_v1` goes on after every hash that is not equal to the target, also after one
below it.  The search of the block solver stops at the first hash that is not above.  They
agree when the first hash that is not above the target is the target itself.
-/

namespace NuLab.FindNonce

open NuLab.Bytes NuLab.Sha256 NuLab.Solver

/-- The double hash of the header with this nonce as a little-endian number. -/
def hashValue (block : BcBlockHeader) (nonce : UInt32) : Nat :=
  ofLE (Fips180.sha256 (Fips180.sha256 (withNonce block nonce).bytes))

theorem hash256_value (block : BcBlockHeader) (nonce : UInt32) :
    ofLE (hash256 (withNonce block nonce).bytes).toList = hashValue block nonce := by
  rw [hash256, Vector.toList_mk, List.toList_toArray, hashValue]

theorem hash256_eq_iff (block : BcBlockHeader) (nonce : UInt32) (target : BcHash32) :
    hash256 (withNonce block nonce).bytes = target ↔
      hashValue block nonce = ofLE target.toList := by
  rw [← hash256_value]
  exact ⟨fun same => by rw [same], ofLE_inj⟩

/-! ## What `find_nonce_v1` finds -/

/-- What a search from `nonce` on returns: it stops at the first hash that
is equal to the target. -/
inductive Exact (block : BcBlockHeader) (target : BcHash32) (nonce nonceMax : UInt32) :
    Int × BcBlockHeader × Bool → Prop where
  | success (m : UInt32) (low : nonce ≤ m) (high : m ≤ nonceMax)
      (equal : hashValue block m = ofLE target.toList)
      (first : ∀ k, nonce ≤ k → k < m → hashValue block k ≠ ofLE target.toList) :
      Exact block target nonce nonceMax (BcSuccess, withNonce block m, true)
  | notFound (best : UInt32) (none : ∀ k, nonce ≤ k → k ≤ nonceMax →
    hashValue block k ≠ ofLE target.toList) :
      Exact block target nonce nonceMax (BcNotFound, withNonce block best, false)

variable {ctxBase : Sha256Ctx} {target : BcHash32} {nonceMax : UInt32}
  {block : BcBlockHeader} {nonce : UInt32}

/-- The nonce that was tried stays in the block, and is overwritten by the next one. -/
theorem exact_next {result : Int × BcBlockHeader × Bool} (more : ¬ nonceMax ≤ nonce)
    (unequal : hashValue block nonce ≠ ofLE target.toList)
    (rest : Exact (withNonce block nonce) target (nonce + 1) nonceMax result) :
    Exact block target nonce nonceMax result := by
  have next := nonce_succ more
  have skip : ∀ k : UInt32, nonce ≤ k → k = nonce ∨ nonce + 1 ≤ k := by
    intro k low
    rw [UInt32.le_iff_toNat_le] at low
    rw [UInt32.le_iff_toNat_le, next, ← UInt32.toNat_inj]
    omega
  cases rest with
  | success m low high equal first =>
    have start : nonce ≤ m := by
      rw [UInt32.le_iff_toNat_le] at low ⊢
      omega
    refine Exact.success m start high equal fun k lowK below => ?_
    rcases skip k lowK with rfl | later
    · exact unequal
    · exact first k later below
  | notFound best none =>
    refine Exact.notFound best fun k lowK highK => ?_
    rcases skip k lowK with rfl | later
    · exact unequal
    · exact none k later highK

theorem findNonceLoop_exact {block : BcBlockHeader} (hash : Vector UInt8 32)
    (nonce nonceBest : UInt32) (cmpMax : Int) (hashed : Hashed ctxBase (front block))
    (inRange : nonce ≤ nonceMax) :
    ∃ result,
      findNonceLoop ctxBase target nonceMax false block hash nonce nonceBest cmpMax = some result ∧
      Exact block target nonce nonceMax result := by
  by_cases solved : hash256 (withNonce block nonce).bytes = target
  · have equal := (hash256_eq_iff block nonce target).mp solved
    exact ⟨_, findNonceLoop_solved hashed solved,
      Exact.success nonce (UInt32.le_refl nonce) inRange equal
      fun k low below => absurd (UInt32.lt_of_le_of_lt low below) (UInt32.lt_irrefl nonce)⟩
  · have unequal := mt (hash256_eq_iff block nonce target).mpr solved
    by_cases last : nonceMax ≤ nonce
    · obtain ⟨best, run⟩ := findNonceLoop_last hashed solved last
      refine ⟨_, run false, Exact.notFound best fun k low high => ?_⟩
      obtain rfl : k = nonce := UInt32.le_antisymm (UInt32.le_trans high last) low
      exact unequal
    · obtain ⟨same, hash', best, cmp, round⟩ := findNonceLoop_next hashed solved last
      have next := nonce_succ last
      have inside : nonce + 1 ≤ nonceMax := by
        rw [UInt32.le_iff_toNat_le] at last ⊢
        omega
      obtain ⟨result, run, rest⟩ := findNonceLoop_exact hash' (nonce + 1) best cmp same inside
      exact ⟨result, round.trans run, exact_next last unequal rest⟩
termination_by nonceMax.toNat - nonce.toNat
decreasing_by
  rw [UInt32.le_iff_toNat_le] at last
  omega

/-- A search with a clear flag over a range that is not empty. -/
theorem bcFindNonce_exact (call : FindNonceCall) (order : call.nonceMin ≤ call.nonceMax) :
    ∃ result, bcFindNonce false call = some result ∧
      Exact call.block call.target call.nonceMin call.nonceMax result := by
  obtain ⟨ctxBase, hashed, loop⟩ := bcFindNonce_loop call
  rw [loop]
  exact findNonceLoop_exact _ _ _ _ hashed order

/-! ## Agreement -/

/-- The task of the block solver for the same search. -/
def FindNonceCall.task (call : FindNonceCall) : FindNonceTask :=
  { header := call.block, target := call.target, nonceMin := call.nonceMin,
    nonceMax := call.nonceMax }

/-- The smallest nonce of the range that solves the header. -/
structure Smallest (call : FindNonceCall) (n : UInt32) : Prop where
  low : call.nonceMin ≤ n
  high : n ≤ call.nonceMax
  solves : Solves call.target (withNonce call.block n)
  first : ∀ k, call.nonceMin ≤ k → k < n → ¬ Solves call.target (withNonce call.block k)

/-- A search succeeds if some nonce of the range solves the header, leaves the smallest one, and
otherwise finds nothing; so does `find_nonce`. -/
structure Agrees (call : FindNonceCall) (result : Int × BcBlockHeader × Bool) : Prop where
  success : result.1 = BcSuccess ↔ ∃ n, call.nonceMin ≤ n ∧ n ≤ call.nonceMax ∧
    Solves call.target (withNonce call.block n)
  smallest : result.1 = BcSuccess → ∃ n, Smallest call n ∧ result.2.1 = withNonce call.block n
  otherwise : result.1 ≠ BcSuccess → result.1 = BcNotFound
  solver : ∃ ret after, findNonce call.task = some (ret, after) ∧ (result.1 = BcSuccess ↔ ret = 1) ∧
    (ret = 1 → result.2.1 = after.header)

theorem solves_iff (call : FindNonceCall) (n : UInt32) :
    Solves call.target (withNonce call.block n) ↔
      hashValue call.block n ≤ ofLE call.target.toList := Iff.rfl

theorem Smallest.unique {call : FindNonceCall} {n m : UInt32} (smallest : Smallest call n)
    (again : Smallest call m) : n = m := by
  by_contra different
  rcases Nat.lt_or_gt_of_ne (mt UInt32.toNat_inj.mp different) with before | behind
  · exact again.first n smallest.low (UInt32.lt_iff_toNat_lt.mpr before) smallest.solves
  · exact smallest.first m again.low (UInt32.lt_iff_toNat_lt.mpr behind) again.solves

/-- `find_nonce` finds the smallest nonce, or there is none. -/
theorem findNonce_task (call : FindNonceCall) :
    ∃ ret after, findNonce call.task = some (ret, after) ∧
      ((ret = 1 ∧ ∃ n, Smallest call n ∧ after.header = withNonce call.block n) ∨
        (ret = 0 ∧ ∀ n, call.nonceMin ≤ n → n ≤ call.nonceMax →
          ¬ Solves call.target (withNonce call.block n))) := by
  obtain ⟨⟨ret, after⟩, run, searched⟩ := findNonce_spec call.task
  refine ⟨ret, after, run, ?_⟩
  cases searched with
  | found m low high solves smallest =>
    have first : Smallest call m := ⟨UInt32.le_iff_toNat_le.mpr low, high, solves,
      fun k lowK below => smallest k (UInt32.le_iff_toNat_le.mp lowK) below⟩
    exact Or.inl ⟨rfl, m, first, rfl⟩
  | nothing _ none =>
    exact Or.inr ⟨rfl, fun n low high => none n (UInt32.le_iff_toNat_le.mp low) high⟩

/-- Before every nonce with a hash below the target there is one whose hash is the target. -/
def HitsTargetFirst (call : FindNonceCall) : Prop :=
  ∀ n, call.nonceMin ≤ n → n ≤ call.nonceMax → hashValue call.block n < ofLE call.target.toList →
    ∃ m, call.nonceMin ≤ m ∧ m < n ∧ hashValue call.block m = ofLE call.target.toList

theorem agrees_of_hitsTargetFirst {call : FindNonceCall} {result : Int × BcBlockHeader × Bool}
    (exact : Exact call.block call.target call.nonceMin call.nonceMax result)
    (hits : HitsTargetFirst call) :
    Agrees call result := by
  obtain ⟨ret, after, run, found⟩ := findNonce_task call
  cases exact with
  | success m low high equal first =>
    have solves : Solves call.target (withNonce call.block m) :=
      (solves_iff call m).mpr (Nat.le_of_eq equal)
    -- a hash below the target in front of `m` would come behind another one that is equal to it
    have smallest : Smallest call m := by
      refine ⟨low, high, solves, fun k lowK below solved => ?_⟩
      have strict := Nat.lt_of_le_of_ne ((solves_iff call k).mp solved) (first k lowK below)
      obtain ⟨j, lowJ, before, hit⟩ :=
        hits k lowK (UInt32.le_trans (UInt32.le_of_lt below) high) strict
      exact first j lowJ (UInt32.lt_trans before below) hit
    obtain ⟨one, n, least, header⟩ | ⟨-, none⟩ := found
    · obtain rfl := least.unique smallest
      exact ⟨⟨fun _ => ⟨n, low, high, solves⟩, fun _ => rfl⟩, fun _ => ⟨n, smallest, rfl⟩,
        fun failed => absurd rfl failed, ret, after, run, ⟨fun _ => one, fun _ => rfl⟩,
        fun _ => header.symm⟩
    · exact absurd solves (none m low high)
  | notFound best none =>
    have unsolved : ∀ n, call.nonceMin ≤ n → n ≤ call.nonceMax →
        ¬ Solves call.target (withNonce call.block n) := by
      intro n low high solved
      have strict := Nat.lt_of_le_of_ne ((solves_iff call n).mp solved) (none n low high)
      obtain ⟨m, lowM, before, hit⟩ := hits n low high strict
      exact none m lowM (UInt32.le_trans (UInt32.le_of_lt before) high) hit
    have failed : BcNotFound ≠ BcSuccess := by decide
    obtain ⟨-, n, least, -⟩ | ⟨zero, -⟩ := found
    · exact absurd least.solves (unsolved n least.low least.high)
    · refine ⟨⟨fun wrong => absurd wrong failed, ?_⟩, fun wrong => absurd wrong failed, fun _ =>
        rfl, ret, after, run, ⟨fun wrong => absurd wrong failed, ?_⟩, ?_⟩
      · rintro ⟨n, low, high, solved⟩
        exact absurd solved (unsolved n low high)
      · intro one
        rw [zero] at one
        cases one
      · intro one
        rw [zero] at one
        cases one

theorem hitsTargetFirst_of_agrees {call : FindNonceCall} {result : Int × BcBlockHeader × Bool}
    (exact : Exact call.block call.target call.nonceMin call.nonceMax result)
    (agrees : Agrees call result) :
    HitsTargetFirst call := by
  intro n low high strict
  have solves := (solves_iff call n).mpr (Nat.le_of_lt strict)
  have success := agrees.success.mpr ⟨n, low, high, solves⟩
  obtain ⟨least, smallest, block⟩ := agrees.smallest success
  cases exact with
  | success m lowM highM equal first =>
    obtain rfl : m = least := congrArg BcBlockHeader.nonce block
    refine ⟨m, lowM, ?_, equal⟩
    have notBehind : ¬ n < m := fun before => smallest.first n low before solves
    have different : m.toNat ≠ n.toNat := by
      intro same
      rw [UInt32.toNat_inj.mp same] at equal
      omega
    rw [UInt32.lt_iff_toNat_lt] at notBehind ⊢
    omega
  | notFound best none => cases success

/-- The two searches agree exactly when no hash of the range is below the target
before one is equal to it. -/
theorem bcFindNonce_agrees_iff (call : FindNonceCall) (order : call.nonceMin ≤ call.nonceMax) :
    (∃ result, bcFindNonce false call = some result ∧ Agrees call result) ↔
      HitsTargetFirst call := by
  obtain ⟨result, run, exact⟩ := bcFindNonce_exact call order
  constructor
  · rintro ⟨other, again, agrees⟩
    obtain rfl := Option.some.inj (run.symm.trans again)
    exact hitsTargetFirst_of_agrees exact agrees
  · intro hits
    exact ⟨result, run, agrees_of_hitsTargetFirst exact hits⟩

/-- No hash is below the target 0. -/
theorem bcFindNonce_agrees_zero :
    ∃ result, bcFindNonce false ⟨zeroBlock, Vector.replicate 32 0, 0, 7⟩ = some result ∧
      Agrees ⟨zeroBlock, Vector.replicate 32 0, 0, 7⟩ result := by
  refine (bcFindNonce_agrees_iff ⟨zeroBlock, Vector.replicate 32 0, 0, 7⟩ (by decide)).mpr
    fun n _ _ below => ?_
  exact absurd below (Nat.not_lt_zero _)

/-! ## A target that is not hit -/

/-- Any header of zeros solves the largest target. -/
def largestTarget : FindNonceCall := ⟨zeroBlock, Vector.replicate 32 255, 0, 0⟩

theorem hash256_notLargest : hash256 zeroBlock.bytes ≠ Vector.replicate 32 255 :=
  hash256_ne (by decide +kernel)

theorem hashValue_lt (block : BcBlockHeader) (nonce : UInt32) :
    hashValue block nonce < 256 ^ 32 := by
  have bound := ofLE_lt (hash256 (withNonce block nonce).bytes).toList
  rwa [hash256_value, Vector.length_toList] at bound

/-- The hash is below the target, and nothing is found. -/
theorem bcFindNonce_misses :
    ¬ ∀ call : FindNonceCall, call.nonceMin ≤ call.nonceMax →
      ∃ result, bcFindNonce false call = some result ∧ Agrees call result := by
  intro always
  obtain ⟨result, run, agrees⟩ := always largestTarget (by decide)
  obtain ⟨other, again, exact⟩ := bcFindNonce_exact largestTarget (by decide)
  obtain rfl := Option.some.inj (run.symm.trans again)
  have largest : ofLE (Vector.replicate 32 (255 : UInt8)).toList = 256 ^ 32 - 1 := by decide
  have unequal := mt (hash256_eq_iff zeroBlock 0 _).mpr hash256_notLargest
  have below := hashValue_lt zeroBlock 0
  rw [largest] at unequal
  obtain ⟨m, -, before, -⟩ := hitsTargetFirst_of_agrees exact agrees 0 (by decide) (by decide) (by
    show hashValue zeroBlock 0 < ofLE (Vector.replicate 32 (255 : UInt8)).toList
    omega)
  exact absurd (UInt32.lt_iff_toNat_lt.mp before) (Nat.not_lt_zero _)

end NuLab.FindNonce
