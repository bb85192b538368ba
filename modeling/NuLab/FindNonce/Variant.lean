import NuLab.FindNonce.Agrees
import NuLab.Sha256.Midsum

/-! # `find_nonce_v2`

The variant hashes the front of the header with `sha256_begin`, and hands its `hash_base`
of 32 bytes over as the 64 bytes of `mid_sum`.  The bytes behind `hash_base` are hashed,
too; they are a parameter, and may be others for each nonce.
-/

namespace NuLab.FindNonce

open NuLab.BlockFold NuLab.Bytes NuLab.Sha256 NuLab.Solver

/-- What lies behind `hash_base` when a nonce is tried. -/
abbrev Behind := UInt32 → Vector UInt8 32

/-- From `ctx = ctx_base` to `sha256_result`: the result, `hash_base` and `hash`. -/
def procV2 (ctxBase : Sha256Ctx) (noncePtr : List UInt8) (hashBase behind hash : Vector UInt8 32) :
    Option (Int × Vector UInt8 32 × Vector UInt8 32) := do
  let (ec, midSum, ctx) ← sha256ContThenSha256Result ctxBase noncePtr 4 (hashBase ++ behind)
  -- only the 32 bytes of the array itself are written
  let hashBase := (midSum.take 32).cast (by decide)
  if ec ≠ 0 then some (ec, hashBase, hash)
  else
    let (ec, hash) := sha256Result ctx
    some (ec, hashBase, hash)

/-- The loop from the label `proc` on: the result, the block and the flag. -/
def findNonceLoopV2 (behind : Behind) (ctxBase : Sha256Ctx) (expect : BcHash32) (nonceMax : UInt32)
    (stopFlag : Bool) (block : BcBlockHeader) (hashBase hash : Vector UInt8 32)
    (nonce nonceBest : UInt32) (cmpMax : Int) :
    Option (Int × BcBlockHeader × Bool) :=
  let block := withNonce block nonce
  match procV2 ctxBase (block.bytes.drop 76) hashBase (behind nonce) hash with
  | none => none
  | some (ec, hashBase, hash) =>
    if ec ≠ 0 then some (ec, block, stopFlag)
    else
      let cmp := i256Compare hash expect
      let nonceBest := if cmp > cmpMax then nonce else nonceBest
      let cmpMax := if cmp > cmpMax then cmp else cmpMax
      if cmp ≠ 0 then
        if _last : nonce ≥ nonceMax then some (BcNotFound, withNonce block nonceBest, stopFlag)
        else if stopFlag then some (BcCanceled, block, stopFlag)
        else findNonceLoopV2 behind ctxBase expect nonceMax stopFlag block hashBase hash
          (nonce + 1) nonceBest cmpMax
      else some (BcSuccess, block, true)
termination_by nonceMax.toNat - nonce.toNat
decreasing_by
  have order := UInt32.lt_iff_toNat_lt.mp (UInt32.not_le.mp _last)
  rw [nonce_succ (UInt32.not_le.mpr (UInt32.not_le.mp _last))]
  omega

def findNonceV2 (behind : Behind) (stopFlag : Bool) (block : BcBlockHeader)
    (nonceMin nonceMax : UInt32) (target : BcHash32) : Option (Int × BcBlockHeader × Bool) := do
  let (_, ctxBase) ← sha256Begin Sha256Ctx.zero block.bytes 76
  findNonceLoopV2 behind ctxBase target nonceMax stopFlag block (Vector.replicate 32 0)
    (Vector.replicate 32 0) nonceMin
    nonceMin INT_MIN

/-! ## One nonce -/

/-- What is compared with the target: the hash of the hash and of what lies behind it. -/
def paddedHash (behind : Behind) (block : BcBlockHeader) (nonce : UInt32) : List UInt8 :=
  Fips180.sha256 (Fips180.sha256 (withNonce block nonce).bytes ++ (behind nonce).toList)

theorem begin_front (header : BcBlockHeader) :
    ∃ ctxBase, sha256Begin Sha256Ctx.zero header.bytes 76 = some (0, ctxBase) ∧
      Hashed ctxBase (front header) := by
  have reset := sha256Reset_hashed Sha256Ctx.zero
  obtain ⟨v, run, -, -, absorbed⟩ :=
    copyTail_spec (sha256Reset Sha256Ctx.zero).2 _ reset.buffers header.bytes 0 76
    (by rw [BcBlockHeader.bytes_length]; decide)
  have taken : header.bytes.take 76 = front header := by
    rw [bytes_eq_front, List.take_left' (front_length header)]
  rw [show (76 : UInt32).toNat - (0 : UInt32).toNat = 76 from rfl, taken, hashStream,
    ← absorb_append, List.nil_append] at absorbed
  refine ⟨{ v.ctx with msglen := 76 }, ?_, ⟨absorbed.acc, absorbed.pending, absorbed.index⟩, ?_⟩
  · simp only [sha256Reset] at run
    simp [sha256Begin, sha256Reset, hashBytes, run]
  · rw [front_length]
    rfl

theorem procV2_hash {ctxBase : Sha256Ctx} {header : BcBlockHeader}
    (hashed : Hashed ctxBase (front header)) (hashBase behind hash : Vector UInt8 32) :
    ∃ hashBase' hash',
      procV2 ctxBase (header.bytes.drop 76) hashBase behind hash = some (0, hashBase', hash') ∧
      hash'.toList = Fips180.sha256 (Fips180.sha256 header.bytes ++ behind.toList) := by
  have back : header.bytes.drop 76 = toLE 4 header.nonce.toNat := by
    rw [bytes_eq_front, List.drop_left' (front_length header)]
  have short : (front header).length + (toLE 4 header.nonce.toNat).length < 2 ^ 32 := by
    rw [front_length, toLE_length]
    decide
  obtain ⟨midSum, ctx, run, value⟩ :=
    sha256ContThenSha256Result_hashed hashed (toLE 4 header.nonce.toNat) short (hashBase ++ behind)
  rw [← bytes_eq_front, Vector.toList_append, List.drop_left' hashBase.length_toList] at value
  rw [toLE_length] at run
  refine ⟨(midSum.take 32).cast (by decide), (sha256Result ctx).2, ?_, value⟩
  have run' : sha256ContThenSha256Result ctxBase (toLE 4 header.nonce.toNat) 4
    (hashBase ++ behind) =
      some (0, midSum, ctx) := run
  simp only [procV2, back, run', Option.bind_eq_bind, Option.bind_some, ne_eq, not_true, if_false]
  rfl

/-! ## A search -/

/-- What a search from `nonce` on returns that stops at the first nonce that is accepted. -/
inductive Finds (accepts : UInt32 → Prop) (block : BcBlockHeader) (nonce nonceMax : UInt32) :
    Int × BcBlockHeader × Bool → Prop where
  | success (m : UInt32) (low : nonce ≤ m) (high : m ≤ nonceMax) (accepted : accepts m)
      (first : ∀ k, nonce ≤ k → k < m → ¬ accepts k) :
      Finds accepts block nonce nonceMax (BcSuccess, withNonce block m, true)
  | notFound (best : UInt32) (none : ∀ k, nonce ≤ k → k ≤ nonceMax → ¬ accepts k) :
      Finds accepts block nonce nonceMax (BcNotFound, withNonce block best, false)

theorem Finds.next {accepts : UInt32 → Prop} {block : BcBlockHeader} {nonce nonceMax : UInt32}
    {result : Int × BcBlockHeader × Bool} (more : ¬ nonceMax ≤ nonce) (refused : ¬ accepts nonce)
    (rest : Finds accepts (withNonce block nonce) (nonce + 1) nonceMax result) :
    Finds accepts block nonce nonceMax result := by
  have next := nonce_succ more
  have skip : ∀ k : UInt32, nonce ≤ k → k = nonce ∨ nonce + 1 ≤ k := by
    intro k low
    rw [UInt32.le_iff_toNat_le] at low
    rw [UInt32.le_iff_toNat_le, next, ← UInt32.toNat_inj]
    omega
  cases rest with
  | success m low high accepted first =>
    have start : nonce ≤ m := by
      rw [UInt32.le_iff_toNat_le] at low ⊢
      omega
    refine Finds.success m start high accepted fun k lowK below => ?_
    obtain rfl | later := skip k lowK
    · exact refused
    · exact first k later below
  | notFound best none =>
    refine Finds.notFound best fun k lowK highK => ?_
    obtain rfl | later := skip k lowK
    · exact refused
    · exact none k later highK

theorem findNonceLoopV2_finds (behind : Behind) (target : BcHash32) {ctxBase : Sha256Ctx}
    {nonceMax : UInt32} {block : BcBlockHeader} (hashBase hash : Vector UInt8 32)
    (nonce nonceBest : UInt32) (cmpMax : Int) (hashed : Hashed ctxBase (front block))
    (inRange : nonce ≤ nonceMax) :
    ∃ result,
      findNonceLoopV2 behind ctxBase target nonceMax false block hashBase hash nonce nonceBest
        cmpMax = some result ∧
      Finds (fun n => paddedHash behind block n = target.toList) block nonce nonceMax result := by
  have same : Hashed ctxBase (front (withNonce block nonce)) := hashed
  obtain ⟨hashBase', hash', run, value⟩ := procV2_hash same hashBase (behind nonce) hash
  have compared : i256Compare hash' target = 0 ↔ paddedHash behind block nonce = target.toList := by
    rw [i256Compare_eq_zero_iff, ← Vector.toList_inj, value]
    rfl
  rw [findNonceLoopV2]
  simp only [run]
  by_cases accepted : paddedHash behind block nonce = target.toList
  · refine ⟨_, by simp only [compared.mpr accepted, ne_eq, not_true, if_false],
      Finds.success nonce (UInt32.le_refl nonce) inRange accepted fun k low below => ?_⟩
    exact absurd (UInt32.lt_of_le_of_lt low below) (UInt32.lt_irrefl nonce)
  · have nonzero := mt compared.mp accepted
    by_cases last : nonceMax ≤ nonce
    · have none : ∀ k, nonce ≤ k → k ≤ nonceMax → paddedHash behind block k ≠ target.toList := by
        intro k low high
        obtain rfl : k = nonce := UInt32.le_antisymm (UInt32.le_trans high last) low
        exact accepted
      refine ⟨_, ?_,
        Finds.notFound (if i256Compare hash' target > cmpMax then nonce else nonceBest) none⟩
      simp only [ne_eq, nonzero, not_false_eq_true, not_true, if_true, if_false,
        ge_iff_le, last, dif_pos]
      rfl
    · have next := nonce_succ last
      have inside : nonce + 1 ≤ nonceMax := by
        rw [UInt32.le_iff_toNat_le] at last ⊢
        omega
      let cmp := i256Compare hash' target
      obtain ⟨result, ran, rest⟩ := findNonceLoopV2_finds behind target hashBase' hash' (nonce + 1)
        (if cmp > cmpMax then nonce else nonceBest)
        (if cmp > cmpMax then cmp else cmpMax) same inside
      refine ⟨result, ?_, rest.next last accepted⟩
      simp only [ne_eq, nonzero, not_false_eq_true, not_true, if_true, if_false, ge_iff_le, last,
        dif_neg, Bool.false_eq_true]
      exact ran
termination_by nonceMax.toNat - nonce.toNat
decreasing_by
  rw [UInt32.le_iff_toNat_le] at last
  omega

/-- The variant stops at the first nonce whose padded hash is the target.  Where it stops at the
nonce of `find_nonce_v1`, SHA-256 has a collision. -/
theorem findNonceV2_differs (behind : Behind) (call : FindNonceCall)
    (order : call.nonceMin ≤ call.nonceMax) :
    ∃ plain variant, bcFindNonce false call = some plain ∧
      findNonceV2 behind false call.block call.nonceMin call.nonceMax call.target = some variant ∧
      Finds (fun n => paddedHash behind call.block n = call.target.toList) call.block
        call.nonceMin call.nonceMax variant ∧
      (plain.1 = BcSuccess → variant.1 = BcSuccess → plain.2.1 = variant.2.1 →
        Collide (Fips180.sha256 plain.2.1.bytes ++ (behind plain.2.1.nonce).toList)
          (Fips180.sha256 plain.2.1.bytes)) := by
  obtain ⟨plain, searched, exact⟩ := bcFindNonce_exact call order
  obtain ⟨ctxBase, start, hashed⟩ := begin_front call.block
  obtain ⟨variant, ran, finds⟩ := findNonceLoopV2_finds behind call.target (Vector.replicate 32 0)
    (Vector.replicate 32 0) call.nonceMin call.nonceMin INT_MIN hashed order
  refine ⟨plain, variant, searched, ?_, finds, ?_⟩
  · simp only [findNonceV2, start, Option.bind_eq_bind, Option.bind_some, ran]
  · intro found found' same
    cases exact with
    | notFound best none => exact absurd found (show BcNotFound ≠ BcSuccess by decide)
    | success m low high equal first =>
      cases finds with
      | notFound best none => exact absurd found' (show BcNotFound ≠ BcSuccess by decide)
      | success m' low' high' accepted first' =>
        obtain rfl : m = m' := congrArg BcBlockHeader.nonce same
        -- the target is the hash of 32 bytes for the one, and of these with 32 more for the other
        have double := congrArg Vector.toList ((hash256_eq_iff call.block m call.target).mpr equal)
        rw [hash256, Vector.toList_mk, List.toList_toArray] at double
        refine ⟨fun whole => ?_, accepted.trans double.symm⟩
        have lengths := congrArg List.length whole
        rw [List.length_append, Vector.length_toList] at lengths
        omega

/-- With zeros behind `hash_base`, and the target 0. -/
theorem findNonceV2_differs_zero :
    ∃ plain variant, bcFindNonce false ⟨zeroBlock, Vector.replicate 32 0, 0, 7⟩ = some plain ∧
      findNonceV2 (fun _ => Vector.replicate 32 0) false zeroBlock 0 7 (Vector.replicate 32 0) =
        some variant ∧
      Finds (fun n => paddedHash (fun _ => Vector.replicate 32 0) zeroBlock n =
        (Vector.replicate 32 0).toList) zeroBlock
        0 7 variant ∧
      (plain.1 = BcSuccess → variant.1 = BcSuccess → plain.2.1 = variant.2.1 →
        Collide (Fips180.sha256 plain.2.1.bytes ++ (Vector.replicate 32 0).toList)
          (Fips180.sha256 plain.2.1.bytes)) :=
  findNonceV2_differs (fun _ => Vector.replicate 32 0)
    ⟨zeroBlock, Vector.replicate 32 0, 0, 7⟩ (by decide)

end NuLab.FindNonce
