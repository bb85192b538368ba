import Mathlib.Data.List.Range
import NuLab.Lib.Run
import NuLab.Sha256.Digest

/-! # Midstates and the index of a context

`sha256_begin` and `sha256_cont_then_sha256_result` hash the two parts of a header.
Together with `sha256_update` and `sha256_finish` they move one index, and whatever
the order of the calls it stays below the size of the block.
-/

namespace NuLab.Sha256

open NuLab.Run

/-! ## `sha256_begin` and `sha256_cont_then_sha256_result` -/

/-- The byte loop of both functions does what the third loop of `sha256_update` does. -/
def hashBytes (ctx : Sha256Ctx) (msg : List UInt8) (len : UInt32) : Option Sha256Ctx :=
  (copyTail ctx msg 0 len).map UpdateVars.ctx

def sha256Begin (ctx : Sha256Ctx) (msg : List UInt8) (len : UInt32) : Option (Int × Sha256Ctx) := do
  let (ec, ctx) := sha256Reset ctx
  if ec = 0 then
    let ctx ← hashBytes ctx msg len
    some (ec, { ctx with msglen := len })
  else some (ec, ctx)

/-- `mid_sum` has the size of a block, and `sha256_result` writes only its first half. -/
def storeResult (midSum : Vector UInt8 64) (sum : Vector UInt8 32) : Vector UInt8 64 :=
  (sum ++ midSum.drop 32).cast (by decide)

def sha256ContThenSha256Result (ctx : Sha256Ctx) (msg : List UInt8) (len : UInt32)
    (midSum : Vector UInt8 64) :
    Option (Int × Vector UInt8 64 × Sha256Ctx) := do
  let ctx ← hashBytes ctx msg len
  let ctx := { ctx with msglen := ctx.msglen + len }
  let (ec, ctx) ← sha256Finish ctx
  if ec ≠ 0 then some (ec, midSum, ctx)
  else
    let midSum := storeResult midSum (sha256Result ctx).2
    let (_, ctx) := sha256Reset ctx
    -- a whole block of `mid_sum` is hashed
    let (_, ctx) ← sha256Update ctx midSum.toList 64
    let (ec, ctx) ← sha256Finish ctx
    some (ec, midSum, ctx)

/-! ## Calls -/

/-- The bytes in memory from a pointer on, as far as a call with this length can read them.
A `sha256_update` that crosses the end of a begun block may read behind its message. -/
def readable (memory : Nat → UInt8) (len : UInt32) : List UInt8 :=
  (List.range (2 * len.toNat)).map memory

inductive Call where
  | update (msg : Nat → UInt8) (len : UInt32)
  | finish
  | result
  | cont (msg : Nat → UInt8) (len : UInt32) (midSum : Vector UInt8 64)

def call (ctx : Sha256Ctx) : Call → Option (Int × Sha256Ctx)
  | .update msg len => sha256Update ctx (readable msg len) len
  | .finish => sha256Finish ctx
  | .result => some ((sha256Result ctx).1, ctx)
  | .cont msg len midSum =>
    (sha256ContThenSha256Result ctx (readable msg len) len midSum).map fun (ec, _, ctx) => (ec, ctx)

/-! ## The index -/

/-- There is room for a byte in the block. -/
def Sha256Ctx.Bounded (ctx : Sha256Ctx) : Prop := ctx.index.toNat < 64

theorem Sha256Ctx.Bounded.buffers {ctx : Sha256Ctx} (bounded : ctx.Bounded) :
    ∃ s, Buffers ctx s := by
  have length : (ctx.block.toList.take ctx.index.toNat).length = ctx.index.toNat := by
    rw [List.length_take, Vector.length_toList]
    exact Nat.min_eq_left (Nat.le_of_lt bounded)
  exact ⟨⟨ctx.hash, ctx.block.toList.take ctx.index.toNat, length.symm ▸ bounded⟩,
    rfl, rfl, length.symm⟩

theorem Buffers.bounded {ctx : Sha256Ctx} {s : HashStream} (holds : Buffers ctx s) : ctx.Bounded :=
  holds.index_lt

theorem sha256Submit_bounded (ctx : Sha256Ctx) : (sha256Submit ctx).Bounded := by
  simp [Sha256Ctx.Bounded]

theorem sha256Reset_bounded (ctx : Sha256Ctx) : (sha256Reset ctx).2.Bounded :=
  (sha256Reset_buffers ctx).bounded

theorem recount_bounded {ctx : Sha256Ctx} (bounded : ctx.Bounded) (msglen : UInt32) :
    Sha256Ctx.Bounded { ctx with msglen := msglen } := bounded

theorem putByte_bounded {ctx : Sha256Ctx} (byte : UInt8) (bounded : ctx.Bounded) :
    ∃ after, putByte ctx byte = some after ∧
      (if after.index = 64 then sha256Submit after else after).Bounded := by
  obtain ⟨s, holds⟩ := bounded.buffers
  obtain ⟨after, stored, -, -, pushed⟩ := putByte_push ctx s holds byte
  exact ⟨after, stored, pushed.bounded⟩

/-- The first loop reads at most the message, also where it goes on behind a completed block. -/
theorem completeBlock_bounded {ctx : Sha256Ctx} (bounded : ctx.Bounded) (ptr : List UInt8)
    (i len : UInt32) (inside : len.toNat - i.toNat ≤ ptr.length) :
    ∃ v, completeBlock ctx ptr i len = some v ∧ v.ctx.Bounded ∧ v.len.toNat ≤ len.toNat ∧
      ptr.length ≤ v.ptr.length + (len.toNat - i.toNat) := by
  induction ptr generalizing ctx i len with
  | nil =>
    rw [List.length_nil, Nat.le_zero] at inside
    have nothing : ¬ i < len := by rw [UInt32.lt_iff_toNat_lt]; omega
    exact ⟨_, completeBlock_stop ctx [] i len nothing, bounded, Nat.le_refl _, Nat.zero_le _⟩
  | cons byte ptr inductionHypothesis =>
    by_cases below : i < len
    · have order := UInt32.lt_iff_toNat_lt.mp below
      have next := counter_succ below
      obtain ⟨after, stored, kept⟩ := putByte_bounded byte bounded
      rw [List.length_cons] at inside
      rw [completeBlock_round ptr below stored]
      by_cases full : after.index = 64
      · have left := left_toNat below
        rw [if_pos full] at kept ⊢
        obtain ⟨v, run, bounded', fewer, read⟩ :=
          inductionHypothesis kept (i + 1) (len - 1 - i) (by omega)
        exact ⟨v, run, bounded', by omega, by rw [List.length_cons]; omega⟩
      · rw [if_neg full] at kept ⊢
        obtain ⟨v, run, bounded', fewer, read⟩ := inductionHypothesis kept (i + 1) len (by omega)
        exact ⟨v, run, bounded', fewer, by rw [List.length_cons]; omega⟩
    · exact ⟨_, completeBlock_stop ctx _ i len below, bounded, Nat.le_refl _, Nat.le_add_right _ _⟩

/-- The second loop leaves the index at 0 or where it found it. -/
theorem pushBlocks_bounded {ctx : Sha256Ctx} (bounded : ctx.Bounded) (ptr : List UInt8)
    (i len : UInt32) (inside : len.toNat ≤ ptr.length) :
    ∃ v, pushBlocks ctx ptr i len = some v ∧ v.ctx.Bounded ∧ v.len.toNat ≤ v.ptr.length := by
  by_cases large : 64 ≤ len
  · obtain ⟨rest, bound⟩ := rest_toNat large
    have enough : 64 ≤ ptr.length := Nat.le_trans bound inside
    obtain ⟨block, pushed⟩ := sha256PushBlock_enough ctx enough
    obtain ⟨v, run, bounded', left⟩ :=
      pushBlocks_bounded (sha256Submit_bounded _) (ptr.drop 64) i (len - 64)
      (by rw [List.length_drop]; omega)
    refine ⟨v, ?_, bounded', left⟩
    rw [pushBlocks, dif_pos large, pushed]
    exact run
  · exact ⟨⟨ctx, ptr, i, len⟩, by rw [pushBlocks, dif_neg large], bounded, inside⟩
termination_by len.toNat
decreasing_by omega

theorem copyTail_bounded {ctx : Sha256Ctx} (bounded : ctx.Bounded) (ptr : List UInt8)
    (i len : UInt32) (inside : len.toNat - i.toNat ≤ ptr.length) :
    ∃ v, copyTail ctx ptr i len = some v ∧ v.ctx.Bounded := by
  obtain ⟨s, holds⟩ := bounded.buffers
  obtain ⟨v, run, -, -, absorbed⟩ := copyTail_spec ctx s holds ptr i len inside
  exact ⟨v, run, absorbed.bounded⟩

/-- The loops behind the first one. -/
theorem lastLoops_bounded {ctx : Sha256Ctx} (bounded : ctx.Bounded) (ptr : List UInt8)
    (i len : UInt32) (inside : len.toNat ≤ ptr.length) :
    ∃ v w, pushBlocks ctx ptr i len = some v ∧ copyTail v.ctx v.ptr v.i v.len = some w ∧
      w.ctx.Bounded := by
  obtain ⟨v, blocks, bounded', left⟩ := pushBlocks_bounded bounded ptr i len inside
  obtain ⟨w, tail, bounded''⟩ := copyTail_bounded bounded' v.ptr v.i v.len (by omega)
  exact ⟨v, w, blocks, tail, bounded''⟩

/-! ## One call -/

theorem readable_length (memory : Nat → UInt8) (len : UInt32) :
    (readable memory len).length = 2 * len.toNat := by
  rw [readable, List.length_map, List.length_range]

theorem sha256Update_bounded {ctx : Sha256Ctx} (bounded : ctx.Bounded) (msg : List UInt8)
    (len : UInt32) (inside : 2 * len.toNat ≤ msg.length) :
    ∃ ec after, sha256Update ctx msg len = some (ec, after) ∧ after.Bounded := by
  unfold sha256Update
  by_cases empty : len = 0
  · exact ⟨0, ctx, if_pos empty, bounded⟩
  · simp only [if_neg empty]
    by_cases overflow : ctx.msglen + len < ctx.msglen
    · exact ⟨EOVERFLOW, ctx, if_pos overflow, bounded⟩
    · rw [if_neg overflow]
      have counted := recount_bounded bounded (ctx.msglen + len)
      by_cases begun : ctx.index ≠ 0
      · obtain ⟨v, firstRun, firstBounded, fewer, read⟩ :=
          completeBlock_bounded counted msg 0 len (by omega)
        -- the first loop leaves at least as much to read as it makes the others read
        obtain ⟨w, x, secondRun, thirdRun, kept⟩ :=
          lastLoops_bounded firstBounded v.ptr v.i v.len (by omega)
        refine ⟨0, x.ctx, ?_, kept⟩
        simp only [if_pos begun, Option.bind_eq_bind, firstRun, Option.bind_some,
          secondRun, thirdRun]
      · obtain ⟨w, x, secondRun, thirdRun, kept⟩ := lastLoops_bounded counted msg 0 len (by omega)
        refine ⟨0, x.ctx, ?_, kept⟩
        simp only [if_neg begun, Option.bind_eq_bind, Option.bind_some, secondRun, thirdRun]

/-- What `sha256_finish` ends with. -/
theorem submitted_bounded {ctx after : Sha256Ctx} {ec : Int} {bitlen : UInt64}
    (run : ((sha256FillZeros ctx).bind fun filled =>
      some
      (ec, sha256Submit { filled with block := storeBitlen filled.block bitlen, index := 64 })) =
      some (ec, after)) :
    after.Bounded := by
  obtain ⟨filled, -, run⟩ := Option.bind_eq_some_iff.mp run
  cases run
  exact sha256Submit_bounded _

theorem sha256Finish_bounded {ctx : Sha256Ctx} (bounded : ctx.Bounded) :
    ∃ after, sha256Finish ctx = some (0, after) ∧ after.Bounded := by
  obtain ⟨s, holds⟩ := bounded.buffers
  obtain ⟨after, run, -⟩ := sha256Finish_spec ctx s holds
  refine ⟨after, run, ?_⟩
  simp only [sha256Finish, Option.bind_eq_bind] at run
  split at run
  · obtain ⟨padded, -, run⟩ := Option.bind_eq_some_iff.mp run
    obtain ⟨filled, -, run⟩ := Option.bind_eq_some_iff.mp run
    exact submitted_bounded run
  · obtain ⟨padded, -, run⟩ := Option.bind_eq_some_iff.mp run
    exact submitted_bounded run

theorem hashBytes_bounded {ctx : Sha256Ctx} (bounded : ctx.Bounded) (msg : List UInt8)
    (len : UInt32) (inside : len.toNat ≤ msg.length) :
    ∃ after, hashBytes ctx msg len = some after ∧ after.Bounded := by
  obtain ⟨v, run, bounded'⟩ := copyTail_bounded bounded msg 0 len (by omega)
  exact ⟨v.ctx, by rw [hashBytes, run, Option.map_some], bounded'⟩

theorem sha256Begin_bounded (ctx : Sha256Ctx) (msg : List UInt8) (len : UInt32)
    (inside : len.toNat ≤ msg.length) :
    ∃ after, sha256Begin ctx msg len = some (0, after) ∧ after.Bounded := by
  obtain ⟨after, run, bounded⟩ := hashBytes_bounded (sha256Reset_bounded ctx) msg len inside
  refine ⟨{ after with msglen := len }, ?_, recount_bounded bounded len⟩
  simp only [sha256Reset] at run
  simp [sha256Begin, sha256Reset, run]

theorem sha256ContThenSha256Result_bounded {ctx : Sha256Ctx} (bounded : ctx.Bounded)
    (msg : List UInt8) (len : UInt32) (midSum : Vector UInt8 64) (inside : len.toNat ≤ msg.length) :
    ∃ sum after, sha256ContThenSha256Result ctx msg len midSum = some (0, sum, after) ∧
      after.Bounded := by
  obtain ⟨hashed, hashRun, hashedBounded⟩ := hashBytes_bounded bounded msg len inside
  obtain ⟨finished, finishRun, -⟩ :=
    sha256Finish_bounded (recount_bounded hashedBounded (hashed.msglen + len))
  -- the second hash begins with a reset and one whole block
  obtain ⟨updated, updateRun, -, absorbed⟩ := sha256Update_fits (sha256Reset finished).2 _
    (sha256Reset_buffers finished) (storeResult midSum (sha256Result finished).2).toList
      64 (by simp)
    (show 0 + 64 < 2 ^ 32 by decide) (Or.inl rfl)
  obtain ⟨after, lastRun, lastBounded⟩ := sha256Finish_bounded absorbed.bounded
  refine ⟨storeResult midSum (sha256Result finished).2, after, ?_, lastBounded⟩
  unfold sha256ContThenSha256Result
  simp only [Option.bind_eq_bind, hashRun, Option.bind_some, finishRun, ne_eq, not_true, if_false,
    updateRun, lastRun]

theorem call_bounded {ctx : Sha256Ctx} (bounded : ctx.Bounded) (c : Call) :
    ∃ result, call ctx c = some result ∧ result.2.Bounded := by
  cases c with
  | update msg len =>
    obtain ⟨ec, after, run, bounded'⟩ := sha256Update_bounded bounded (readable msg len) len
      (Nat.le_of_eq (readable_length msg len).symm)
    exact ⟨(ec, after), run, bounded'⟩
  | finish =>
    obtain ⟨after, run, bounded'⟩ := sha256Finish_bounded bounded
    exact ⟨(0, after), run, bounded'⟩
  | result => exact ⟨_, rfl, bounded⟩
  | cont msg len midSum =>
    obtain ⟨sum, after, run, bounded'⟩ :=
      sha256ContThenSha256Result_bounded bounded (readable msg len) len midSum
      (by rw [readable_length]; omega)
    exact ⟨(0, after), by rw [call, run, Option.map_some], bounded'⟩

/-- Every call in every sequence is defined, so it writes inside the block, and
leaves the index below 64. -/
theorem calls_bounded {ctx : Sha256Ctx} (bounded : ctx.Bounded) (calls : List Call) :
    AllSteps call Prod.snd (fun _ _ result => result.2.index.toNat < 64) ctx calls := by
  apply allSteps_of_invariant Sha256Ctx.Bounded _ ctx calls bounded
  intro ctx c bounded
  obtain ⟨result, run, kept⟩ := call_bounded bounded c
  exact ⟨result, run, kept, kept⟩

/-- The sequences that start with `sha256_reset` and those that start with `sha256_begin`. -/
theorem index_below_block (ctx : Sha256Ctx) (calls : List Call) :
    ((sha256Reset ctx).2.index.toNat < 64 ∧
      AllSteps call Prod.snd (fun _ _ result => result.2.index.toNat < 64)
        (sha256Reset ctx).2 calls) ∧
      ∀ msg len, ∃ begun, sha256Begin ctx (readable msg len) len = some (0, begun) ∧
        begun.index.toNat < 64 ∧
        AllSteps call Prod.snd (fun _ _ result => result.2.index.toNat < 64) begun calls := by
  have reset := sha256Reset_bounded ctx
  refine ⟨⟨reset, calls_bounded reset calls⟩, fun msg len => ?_⟩
  obtain ⟨begun, run, bounded⟩ :=
    sha256Begin_bounded ctx (readable msg len) len (by rw [readable_length]; omega)
  exact ⟨begun, run, bounded, calls_bounded bounded calls⟩

end NuLab.Sha256
