import NuLab.FindNonce.Agrees

/-! # The nonce that a search without success leaves

`nonce_best` is the first nonce with the greatest result of `i256_compare`, and that is
not the nonce with the least hash.  Above the target a greater result means more agreeing
bytes, below it fewer, and every hash above counts more than all hashes below.
-/

namespace NuLab.FindNonce

open NuLab.Bytes NuLab.Sha256 NuLab.Solver

/-! ## The running maximum -/

/-- The first of the nonces from `start` to `nonce` with the greatest value. -/
structure BestUpTo (value : UInt32 → Int) (start nonce best : UInt32) : Prop where
  low : start ≤ best
  high : best ≤ nonce
  most : ∀ k, start ≤ k → k ≤ nonce → value k ≤ value best
  first : ∀ k, start ≤ k → k < best → value k < value best

variable {value : UInt32 → Int} {start nonce best : UInt32}

theorem bestUpTo_start (value : UInt32 → Int) (start : UInt32) :
    BestUpTo value start start start where
  low := UInt32.le_refl start
  high := UInt32.le_refl start
  most k low high := by rw [UInt32.le_antisymm high low]
  first k low below := absurd (UInt32.lt_of_le_of_lt low below) (UInt32.lt_irrefl start)

/-- The next nonce takes the place of the best one only with a greater value. -/
theorem BestUpTo.next {nonceMax : UInt32} (upTo : BestUpTo value start nonce best)
    (more : ¬ nonceMax ≤ nonce) :
    BestUpTo value start (nonce + 1)
      (if value (nonce + 1) > value best then nonce + 1 else best) := by
  have succ := nonce_succ more
  have below : ∀ k : UInt32, k < nonce + 1 → k ≤ nonce := by
    intro k less
    rw [UInt32.lt_iff_toNat_lt, succ] at less
    exact UInt32.le_iff_toNat_le.mpr (Nat.lt_succ_iff.mp less)
  have later : nonce ≤ nonce + 1 := by
    rw [UInt32.le_iff_toNat_le, succ]
    exact Nat.le_succ _
  have split : ∀ k : UInt32, k ≤ nonce + 1 → k ≤ nonce ∨ k = nonce + 1 := fun k high =>
    (UInt32.lt_or_eq_of_le high).imp_left (below k)
  by_cases greater : value (nonce + 1) > value best
  · rw [if_pos greater]
    refine ⟨UInt32.le_trans upTo.low (UInt32.le_trans upTo.high later), UInt32.le_refl _,
      fun k low high => ?_, fun k low less => ?_⟩
    · cases split k high with
      | inl before => exact Int.le_of_lt (Int.lt_of_le_of_lt (upTo.most k low before) greater)
      | inr same => rw [same]
    · exact Int.lt_of_le_of_lt (upTo.most k low (below k less)) greater
  · rw [if_neg greater]
    refine ⟨upTo.low, UInt32.le_trans upTo.high later, fun k low high => ?_, upTo.first⟩
    cases split k high with
    | inl before => exact upTo.most k low before
    | inr same =>
      rw [same]
      exact Int.not_lt.mp greater

/-! ## The loop -/

/-- What the search compares for a nonce. -/
def comparison (block : BcBlockHeader) (target : BcHash32) (nonce : UInt32) : Int :=
  i256Compare (hash256 (withNonce block nonce).bytes) target

theorem comparison_eq_zero_iff (block : BcBlockHeader) (target : BcHash32) (nonce : UInt32) :
    comparison block target nonce = 0 ↔ hashValue block nonce = ofLE target.toList :=
  (i256Compare_eq_zero_iff _ _).trans (hash256_eq_iff block nonce target)

/-- The bytes of the hash that agree with the target, from the most significant one on. -/
def agreement (block : BcBlockHeader) (target : BcHash32) (nonce : UInt32) : Nat :=
  agreeing (hash256 (withNonce block nonce).bytes) target

theorem agreement_le (block : BcBlockHeader) (target : BcHash32) (nonce : UInt32) :
    agreement block target nonce ≤ 32 := by
  have few : agreement block target nonce ≤
      ((hash256 (withNonce block nonce).bytes).toList.zip target.toList).reverse.length :=
    (List.takeWhile_prefix _).length_le
  simpa using few

/-- Above the target the result is positive, below it negative, and its size
counts the agreeing bytes. -/
theorem comparison_spec (block : BcBlockHeader) (target : BcHash32) (nonce : UInt32) :
    (ofLE target.toList < hashValue block nonce → comparison block target nonce =
      agreement block target nonce + 1) ∧
    (hashValue block nonce < ofLE target.toList →
      comparison block target nonce = -(agreement block target nonce + 1)) := by
  obtain ⟨positive, negative⟩ := i256Compare_sign (hash256 (withNonce block nonce).bytes) target
  rw [hash256_value] at positive negative
  have size : hashValue block nonce ≠ ofLE target.toList →
      (comparison block target nonce).natAbs = agreement block target nonce + 1 := fun unequal =>
    i256Compare_natAbs (mt (hash256_eq_iff block nonce target).mp unequal)
  constructor
  · intro above
    have sign : 0 < comparison block target nonce := positive.mpr above
    have := size (Nat.ne_of_gt above)
    omega
  · intro below
    have sign : comparison block target nonce < 0 := negative.mpr below
    have := size (Nat.ne_of_lt below)
    omega

theorem comparison_least (block : BcBlockHeader) (target : BcHash32) (nonce : UInt32) :
    INT_MIN < comparison block target nonce := by
  have few := agreement_le block target nonce
  obtain ⟨above, below⟩ := comparison_spec block target nonce
  have zero := comparison_eq_zero_iff block target nonce
  rw [INT_MIN]
  rcases Nat.lt_trichotomy (hashValue block nonce) (ofLE target.toList) with less | same | more
  · rw [below less]
    omega
  · rw [zero.mpr same]
    omega
  · rw [above more]
    omega

variable {ctxBase : Sha256Ctx} {target : BcHash32} {nonceMax : UInt32}

/-- A search that finds nothing ends with the best nonce of the range, if it has it
of the nonces so far. -/
theorem findNonceLoop_best (block : BcBlockHeader) (hash : Vector UInt8 32)
    (nonce nonceBest : UInt32) (cmpMax : Int) {best : UInt32}
    (hashed : Hashed ctxBase (front block)) (inRange : nonce ≤ nonceMax)
    (unequal : ∀ k, nonce ≤ k → k ≤ nonceMax → hashValue block k ≠ ofLE target.toList)
    (upTo : BestUpTo (comparison block target) start nonce best)
    (chosen : (if comparison block target nonce > cmpMax then nonce else nonceBest) = best)
    (most : (if comparison block target nonce > cmpMax then comparison block target nonce
      else cmpMax) = comparison block target best) :
    ∃ best, findNonceLoop ctxBase target nonceMax false block hash nonce nonceBest cmpMax =
      some (BcNotFound, withNonce block best, false) ∧
        BestUpTo (comparison block target) start nonceMax best := by
  have nonzero := mt (comparison_eq_zero_iff block target nonce).mp
    (unequal nonce (UInt32.le_refl nonce) inRange)
  -- no hash is equal to the target, so that a round ends in `next_nonce`
  have round : findNonceLoop ctxBase target nonceMax false block hash nonce nonceBest cmpMax =
      if nonceMax ≤ nonce then some (BcNotFound, withNonce block best, false)
      else findNonceLoop ctxBase target nonceMax false (withNonce block nonce)
        (hash256 (withNonce block nonce).bytes) (nonce + 1) best
          (comparison block target best) := by
    rw [findNonceLoop_round hashed, ← most, ← chosen]
    exact if_pos nonzero
  by_cases last : nonceMax ≤ nonce
  · rw [if_pos last] at round
    obtain rfl := UInt32.le_antisymm inRange last
    exact ⟨best, round, upTo⟩
  · rw [if_neg last] at round
    have next := nonce_succ last
    have inside : nonce + 1 ≤ nonceMax := by
      rw [UInt32.le_iff_toNat_le] at last ⊢
      omega
    have later : nonce ≤ nonce + 1 := by
      rw [UInt32.le_iff_toNat_le]
      omega
    rw [round]
    have rest : ∀ k, nonce + 1 ≤ k → k ≤ nonceMax → hashValue block k ≠ ofLE target.toList :=
      fun k low high => unequal k (UInt32.le_trans later low) high
    -- the nonce in the block does not matter for what is compared
    have same : comparison (withNonce block nonce) target = comparison block target := rfl
    have tail := @findNonceLoop_best (withNonce block nonce) (hash256 (withNonce block nonce).bytes)
      (nonce + 1) best
      (comparison block target best)
    rw [same] at tail
    exact tail hashed inside rest (upTo.next last) rfl
      (apply_ite (comparison block target) _ _ _).symm
termination_by nonceMax.toNat - nonce.toNat
decreasing_by
  rw [UInt32.le_iff_toNat_le] at last
  omega

/-! ## The nonce that is left -/

/-- The nonce that a search without success leaves in the block.  If some hash of the range is
above the target, it is the first of those hashes with the most agreeing bytes; else it is the
first one with the fewest. -/
structure LeftOver (call : FindNonceCall) (best : UInt32) : Prop where
  low : call.nonceMin ≤ best
  high : best ≤ call.nonceMax
  above : ∀ n, call.nonceMin ≤ n → n ≤ call.nonceMax →
    ofLE call.target.toList < hashValue call.block n →
    ofLE call.target.toList < hashValue call.block best ∧
    agreement call.block call.target n ≤ agreement call.block call.target best ∧
    (n < best → agreement call.block call.target n < agreement call.block call.target best)
  below : hashValue call.block best < ofLE call.target.toList → ∀ n, call.nonceMin ≤ n →
    n ≤ call.nonceMax →
    hashValue call.block n < ofLE call.target.toList ∧
    agreement call.block call.target best ≤ agreement call.block call.target n ∧
    (n < best → agreement call.block call.target best < agreement call.block call.target n)

theorem leftOver_of_bestUpTo {call : FindNonceCall}
    (upTo : BestUpTo (comparison call.block call.target) call.nonceMin call.nonceMax best)
    (unequal : ∀ k, call.nonceMin ≤ k → k ≤ call.nonceMax →
      hashValue call.block k ≠ ofLE call.target.toList) :
    LeftOver call best := by
  obtain ⟨bestAbove, bestBelow⟩ := comparison_spec call.block call.target best
  have different := unequal best upTo.low upTo.high
  refine ⟨upTo.low, upTo.high, fun n low high above => ?_, fun less n low high => ?_⟩
  · have value := (comparison_spec call.block call.target n).1 above
    have most := upTo.most n low high
    -- the best value is positive, as this one is
    have order : ofLE call.target.toList < hashValue call.block best := by
      rcases Nat.lt_or_gt_of_ne different with less | more
      · have := bestBelow less
        omega
      · exact more
    have bestValue := bestAbove order
    refine ⟨order, by omega, fun before => ?_⟩
    have := upTo.first n low before
    omega
  · have bestValue := bestBelow less
    have most := upTo.most n low high
    have order : hashValue call.block n < ofLE call.target.toList := by
      rcases Nat.lt_or_gt_of_ne (unequal n low high) with less | more
      · exact less
      · have := (comparison_spec call.block call.target n).1 more
        omega
    have value := (comparison_spec call.block call.target n).2 order
    refine ⟨order, by omega, fun before => ?_⟩
    have := upTo.first n low before
    omega

/-- A search that finds nothing leaves the best nonce of its range. -/
theorem bcFindNonce_leftOver (call : FindNonceCall) (order : call.nonceMin ≤ call.nonceMax)
    (unequal : ∀ n, call.nonceMin ≤ n → n ≤ call.nonceMax →
      hashValue call.block n ≠ ofLE call.target.toList) :
    ∃ best, bcFindNonce false call = some (BcNotFound, withNonce call.block best, false) ∧
      LeftOver call best := by
  obtain ⟨ctxBase, hashed, loop⟩ := bcFindNonce_loop call
  have least := comparison_least call.block call.target call.nonceMin
  obtain ⟨best, run, upTo⟩ :=
    findNonceLoop_best call.block (Vector.replicate 32 0) call.nonceMin call.nonceMin INT_MIN
    hashed order unequal (bestUpTo_start _ _) (if_pos least) (if_pos least)
  exact ⟨best, (loop false).trans run, leftOver_of_bestUpTo upTo unequal⟩

/-- No hash is equal to the greatest number. -/
def twoNonces : FindNonceCall := ⟨zeroBlock, Vector.replicate 32 255, 0, 1⟩

theorem hash256_second : hash256 (withNonce zeroBlock 1).bytes ≠ Vector.replicate 32 255 :=
  hash256_ne (by decide +kernel)

theorem bcFindNonce_leftOver_two :
    ∃ best, bcFindNonce false twoNonces = some (BcNotFound, withNonce zeroBlock best, false) ∧
      LeftOver twoNonces best := by
  refine bcFindNonce_leftOver twoNonces (by decide) fun n _ high => ?_
  have either : n = 0 ∨ n = 1 := by
    simp only [← UInt32.toNat_inj, UInt32.reduceToNat]
    have : n.toNat ≤ 1 := UInt32.le_iff_toNat_le.mp high
    omega
  rcases either with rfl | rfl
  · exact mt (hash256_eq_iff zeroBlock 0 _).mpr hash256_notLargest
  · exact mt (hash256_eq_iff zeroBlock 1 _).mpr hash256_second

end NuLab.FindNonce
