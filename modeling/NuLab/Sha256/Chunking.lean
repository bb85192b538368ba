import NuLab.Sha256.Midstate

/-! # Chunks

What cutting a message into `sha256_update` calls does to its digest.  The first
loop of `sha256_update` shortens `len` when it completes the begun block but goes
on counting with the same `i`.  So a call that starts inside a block and crosses
its end loses bytes, while calls that start on a block boundary or stay inside
the begun block obey the chunking law.
-/

namespace NuLab.Sha256

open NuLab.Bytes NuLab.BlockFold

/-! ## Sequences of calls -/

/-- A successful `sha256_update(ctx, chunk, length of chunk)`; the length is a `uint32_t`. -/
def updateChunk (ctx : Sha256Ctx) (chunk : List UInt8) : Option Sha256Ctx :=
  if chunk.length < 2 ^ 32 then
    (sha256Update ctx chunk (UInt32.ofNat chunk.length)).bind fun (ec, after) =>
      if ec = 0 then some after else none
  else none

def updateAll (ctx : Sha256Ctx) : List (List UInt8) → Option Sha256Ctx
  | [] => some ctx
  | chunk :: chunks => (updateChunk ctx chunk).bind fun after => updateAll after chunks

/-- What a caller can observe of a context: `block` only counts below `index`. -/
def Sha256Ctx.observed (ctx : Sha256Ctx) : Vector UInt32 8 × UInt32 × UInt32 × List UInt8 :=
  (ctx.hash, ctx.index, ctx.msglen, ctx.block.toList.take ctx.index.toNat)

def ChunkingLaw (ctx : Sha256Ctx) (a b : List UInt8) : Prop :=
  ∃ parted whole, updateAll ctx [a, b] = some parted ∧ updateAll ctx [a ++ b] = some whole ∧
    parted.observed = whole.observed

/-- Updating with the chunks, finishing and reading the result is the one-shot
digest of the message. -/
def DigestLaw (ctx : Sha256Ctx) (chunks : List (List UInt8)) : Prop :=
  ∃ updated finished, updateAll ctx chunks = some updated ∧
    sha256Finish updated = some (0, finished) ∧
    ∀ buf, sha256Digest chunks.flatten (UInt32.ofNat chunks.flatten.length) buf =
      some (sha256Result finished)

/-- No call starts inside a block and ends behind it; `hashed` bytes went before. -/
def AllFit (hashed : Nat) : List (List UInt8) → Prop
  | [] => True
  | chunk :: chunks =>
    (hashed % 64 = 0 ∨ hashed % 64 + chunk.length ≤ 64) ∧ AllFit (hashed + chunk.length) chunks

theorem allFit_mod (hashed : Nat) (chunks : List (List UInt8)) :
    AllFit (hashed % 64) chunks ↔ AllFit hashed chunks := by
  induction chunks generalizing hashed with
  | nil => exact Iff.rfl
  | cons chunk chunks inductionHypothesis =>
    rw [AllFit, AllFit, Nat.mod_mod, ← inductionHypothesis (hashed % 64 + chunk.length),
      ← inductionHypothesis (hashed + chunk.length), Nat.mod_add_mod]

/-- The stream and the number of bytes determine everything a caller can observe. -/
theorem Buffers.observed_eq {first second : Sha256Ctx} {s : HashStream} (holds : Buffers first s)
    (holds' : Buffers second s) (msglen : first.msglen = second.msglen) :
    first.observed = second.observed := by
  have index : first.index = second.index :=
    UInt32.toNat_inj.mp (holds.index.trans holds'.index.symm)
  have pending := holds.pending.trans holds'.pending.symm
  rw [Sha256Ctx.observed, Sha256Ctx.observed, pending, holds.acc, holds'.acc, index, msglen]

/-! ## Calls that fit -/

/-- Such a call feeds its chunk to the stream, whatever led to the context. -/
theorem updateChunk_buffers {ctx : Sha256Ctx} {s : HashStream} (holds : Buffers ctx s)
    (chunk : List UInt8) (room : ctx.msglen.toNat + chunk.length < 2 ^ 32)
    (fits : ctx.index.toNat % 64 = 0 ∨ ctx.index.toNat % 64 + chunk.length ≤ 64) :
    ∃ after, updateChunk ctx chunk = some after ∧
      after.msglen.toNat = ctx.msglen.toNat + chunk.length ∧
      Buffers after (s.absorb Fips180.compress chunk) := by
  have small : chunk.length < 2 ^ 32 := by omega
  have length : (UInt32.ofNat chunk.length).toNat = chunk.length := UInt32.toNat_ofNat_of_lt' small
  have fitsCtx : Fits ctx (UInt32.ofNat chunk.length) := by
    rw [Nat.mod_eq_of_lt holds.index_lt] at fits
    rw [Fits, ← UInt32.toNat_inj, length]
    exact fits
  obtain ⟨after, run, msglen, absorbed⟩ := sha256Update_fits ctx s holds chunk
    (UInt32.ofNat chunk.length) (Nat.le_of_eq length) (by rw [length]; exact room) fitsCtx
  rw [length, List.take_length] at absorbed
  refine ⟨after, by rw [updateChunk, if_pos small, run]; rfl, ?_, absorbed⟩
  rw [msglen, UInt32.toNat_add, length, Nat.mod_eq_of_lt room]

theorem updateAll_buffers {ctx : Sha256Ctx} {s : HashStream} (holds : Buffers ctx s)
    (chunks : List (List UInt8)) (room : ctx.msglen.toNat + chunks.flatten.length < 2 ^ 32)
    (fits : AllFit ctx.index.toNat chunks) :
    ∃ after, updateAll ctx chunks = some after ∧
      after.msglen.toNat = ctx.msglen.toNat + chunks.flatten.length ∧
      Buffers after (s.absorb Fips180.compress chunks.flatten) := by
  induction chunks generalizing ctx s with
  | nil => exact ⟨ctx, rfl, rfl, holds⟩
  | cons chunk chunks inductionHypothesis =>
    obtain ⟨fitsHead, fitsTail⟩ := fits
    rw [List.flatten_cons, List.length_append] at room
    obtain ⟨middle, headRun, counted, absorbed⟩ :=
      updateChunk_buffers holds chunk (by omega) fitsHead
    -- the call has moved the index by the length of its chunk, up to whole blocks
    have index : middle.index.toNat = (ctx.index.toNat + chunk.length) % 64 := by
      rw [absorbed.index, absorb_pending_length, holds.index]
    obtain ⟨after, tailRun, total, all⟩ := inductionHypothesis absorbed (by omega)
      (by rw [index, allFit_mod]; exact fitsTail)
    refine ⟨after, by rw [updateAll, headRun, Option.bind_some, tailRun], ?_, ?_⟩
    · rw [total, counted, List.flatten_cons, List.length_append, Nat.add_assoc]
    · rw [List.flatten_cons, absorb_append]
      exact all

/-- From a reset the calls hash the message that they cut. -/
theorem updateAll_hashed {ctx : Sha256Ctx} {message : List UInt8} (hashed : Hashed ctx message)
    (chunks : List (List UInt8)) (room : message.length + chunks.flatten.length < 2 ^ 32)
    (fits : AllFit message.length chunks) :
    ∃ after, updateAll ctx chunks = some after ∧ Hashed after (message ++ chunks.flatten) := by
  obtain ⟨after, run, counted, absorbed⟩ := updateAll_buffers hashed.buffers chunks
    (by rw [hashed.counted]; exact room) (by rw [hashed.index, allFit_mod]; exact fits)
  refine ⟨after, run, by rw [hashStream, absorb_append]; exact absorbed, ?_⟩
  rw [counted, hashed.counted, List.length_append]

theorem chunkingLaw_fits {ctx : Sha256Ctx} (bounded : ctx.Bounded) (a b : List UInt8)
    (room : ctx.msglen.toNat + (a.length + b.length) < 2 ^ 32)
    (fitsParts : AllFit ctx.index.toNat [a, b]) (fitsWhole : AllFit ctx.index.toNat [a ++ b]) :
    ChunkingLaw ctx a b := by
  obtain ⟨s, holds⟩ := bounded.buffers
  obtain ⟨parted, partedRun, partedCount, partedHolds⟩ :=
    updateAll_buffers holds [a, b] (by simpa using room) fitsParts
  obtain ⟨whole, wholeRun, wholeCount, wholeHolds⟩ :=
    updateAll_buffers holds [a ++ b] (by simpa using room) fitsWhole
  have same : [a, b].flatten = [a ++ b].flatten := by simp
  rw [same] at partedCount partedHolds
  have msglen := UInt32.toNat_inj.mp (partedCount.trans wholeCount.symm)
  exact ⟨parted, whole, partedRun, wholeRun, partedHolds.observed_eq wholeHolds msglen⟩

theorem digestLaw_fits (start : Sha256Ctx) (chunks : List (List UInt8))
    (room : chunks.flatten.length < 2 ^ 32) (fits : AllFit 0 chunks) :
    DigestLaw (sha256Reset start).2 chunks := by
  obtain ⟨updated, run, hashed⟩ :=
    updateAll_hashed (sha256Reset_hashed start) chunks (by simpa using room) fits
  rw [List.nil_append] at hashed
  obtain ⟨finished, finish, result⟩ := sha256Finish_hashed updated _ hashed
  refine ⟨updated, finished, run, finish, fun buf => ?_⟩
  have length : (UInt32.ofNat chunks.flatten.length).toNat = chunks.flatten.length :=
    UInt32.toNat_ofNat_of_lt' room
  obtain ⟨sum, digest, value⟩ := sha256Digest_spec chunks.flatten _ buf (by rw [length])
  rw [length, List.take_length, ← result] at value
  rw [digest, Vector.toList_inj.mp value]
  rfl

/-! ## Contexts that successful calls reach -/

theorem completeBlock_keeps {ctx : Sha256Ctx} {ptr : List UInt8} {i len : UInt32} {v : UpdateVars}
    (bounded : ctx.Bounded) (run : completeBlock ctx ptr i len = some v) : v.ctx.Bounded := by
  induction ptr generalizing ctx i len with
  | nil =>
    rw [completeBlock] at run
    split_ifs at run
    cases run
    exact bounded
  | cons byte ptr inductionHypothesis =>
    by_cases below : i < len
    · obtain ⟨after, stored, kept⟩ := putByte_bounded byte bounded
      rw [completeBlock_round ptr below stored] at run
      split_ifs at run kept with full
      · exact inductionHypothesis kept run
      · exact inductionHypothesis kept run
    · rw [completeBlock_stop ctx _ i len below] at run
      cases run
      exact bounded

theorem pushBlocks_keeps {ctx : Sha256Ctx} {ptr : List UInt8} {i len : UInt32} {v : UpdateVars}
    (bounded : ctx.Bounded) (run : pushBlocks ctx ptr i len = some v) : v.ctx.Bounded := by
  fun_induction pushBlocks ctx ptr i len with
  | case1 => cases run
  | case2 ctx ptr len large after pushed inductionHypothesis =>
    refine inductionHypothesis ?_ run
    rw [sha256PushBlock] at pushed
    split_ifs at pushed
    cases pushed
    exact sha256Submit_bounded _
  | case3 =>
    cases run
    exact bounded

theorem copyTail_keeps {ctx : Sha256Ctx} {ptr : List UInt8} {i len : UInt32} {v : UpdateVars}
    (bounded : ctx.Bounded) (run : copyTail ctx ptr i len = some v) : v.ctx.Bounded := by
  induction ptr generalizing ctx i len with
  | nil =>
    rw [copyTail] at run
    split_ifs at run
    cases run
    exact bounded
  | cons byte ptr inductionHypothesis =>
    by_cases below : i < len
    · obtain ⟨after, stored, kept⟩ := putByte_bounded byte bounded
      simp only [copyTail, if_pos below, stored] at run
      split_ifs at run kept with full
      · exact inductionHypothesis kept run
      · exact inductionHypothesis kept run
    · rw [copyTail_stop ctx _ i len below] at run
      cases run
      exact bounded

/-- The loops behind the first one. -/
theorem lastLoops_keeps {ctx after : Sha256Ctx} {ptr : List UInt8} {i len : UInt32} {ec : Int}
    (bounded : ctx.Bounded)
    (run : (do
      let v ← pushBlocks ctx ptr i len
      let v ← copyTail v.ctx v.ptr v.i v.len
      some ((0 : Int), v.ctx)) = some (ec, after)) : after.Bounded := by
  obtain ⟨v, secondRun, run⟩ := Option.bind_eq_some_iff.mp run
  obtain ⟨w, thirdRun, run⟩ := Option.bind_eq_some_iff.mp run
  cases run
  exact copyTail_keeps (pushBlocks_keeps bounded secondRun) thirdRun

theorem sha256Update_keeps {ctx after : Sha256Ctx} {msg : List UInt8} {len : UInt32} {ec : Int}
    (bounded : ctx.Bounded) (run : sha256Update ctx msg len = some (ec, after)) :
    after.Bounded := by
  unfold sha256Update at run
  by_cases empty : len = 0
  · cases (if_pos empty).symm.trans run
    exact bounded
  · simp only [if_neg empty] at run
    by_cases overflow : ctx.msglen + len < ctx.msglen
    · cases (if_pos overflow).symm.trans run
      exact bounded
    · rw [if_neg overflow] at run
      have counted := recount_bounded bounded (ctx.msglen + len)
      by_cases begun : ctx.index ≠ 0
      · rw [if_pos begun] at run
        obtain ⟨v, firstRun, run⟩ := Option.bind_eq_some_iff.mp run
        exact lastLoops_keeps (completeBlock_keeps counted firstRun) run
      · rw [if_neg begun] at run
        exact lastLoops_keeps counted run

theorem updateChunk_keeps {ctx after : Sha256Ctx} {chunk : List UInt8} (bounded : ctx.Bounded)
    (run : updateChunk ctx chunk = some after) : after.Bounded := by
  unfold updateChunk at run
  split_ifs at run
  obtain ⟨⟨ec, updated⟩, update, success⟩ := Option.bind_eq_some_iff.mp run
  dsimp only at success
  split_ifs at success
  cases success
  exact sha256Update_keeps bounded update

theorem updateAll_keeps {ctx after : Sha256Ctx} {chunks : List (List UInt8)}
    (bounded : ctx.Bounded) (run : updateAll ctx chunks = some after) : after.Bounded := by
  induction chunks generalizing ctx with
  | nil =>
    cases run
    exact bounded
  | cons chunk chunks inductionHypothesis =>
    obtain ⟨middle, headRun, tailRun⟩ := Option.bind_eq_some_iff.mp run
    exact inductionHypothesis (updateChunk_keeps bounded headRun) tailRun

/-- In every run of successful calls, the context reached obeys the chunking law for all further
calls that fit; and if all calls fit, the digest is the one-shot digest. -/
theorem sha256Update_chunking (start : Sha256Ctx) (chunks : List (List UInt8)) :
    (∀ ctx, updateAll (sha256Reset start).2 chunks = some ctx → ∀ a b,
      ctx.msglen.toNat + (a.length + b.length) < 2 ^ 32 → AllFit ctx.index.toNat [a, b] →
      AllFit ctx.index.toNat [a ++ b] → ChunkingLaw ctx a b) ∧
    (AllFit 0 chunks → chunks.flatten.length < 2 ^ 32 →
      DigestLaw (sha256Reset start).2 chunks) := by
  refine ⟨fun ctx run a b room fitsParts fitsWhole => ?_, fun fits room =>
    digestLaw_fits start chunks room fits⟩
  exact chunkingLaw_fits (updateAll_keeps (sha256Reset_bounded start) run) a b room
    fitsParts fitsWhole

theorem sha256Update_chunking_five :
    AllFit 0 [[1, 2, 3], [4, 5]] ∧ DigestLaw (sha256Reset Sha256Ctx.zero).2 [[1, 2, 3], [4, 5]] :=
  have fits : AllFit 0 [[1, 2, 3], [4, 5]] := ⟨Or.inl rfl, Or.inr (by decide), trivial⟩
  ⟨fits, (sha256Update_chunking Sha256Ctx.zero _).2 fits (by decide)⟩

/-! ## Calls that cross the end of a begun block -/

/-- `q` bytes complete the block; at most `q` more are neither hashed nor buffered. -/
theorem completeBlock_overshoot (ctx : Sha256Ctx) (s : HashStream) (holds : Buffers ctx s)
    (ptr : List UInt8) (i len : UInt32) (q : Nat) (start : ctx.index.toNat + (q - i.toNat) = 64)
    (before : i.toNat < q) (crosses : q < len.toNat) (near : len.toNat ≤ 2 * q)
    (readable : len.toNat - i.toNat ≤ ptr.length) :
    ∃ v, completeBlock ctx ptr i len = some v ∧ v.ctx.msglen = ctx.msglen ∧ v.ctx.index = 0 ∧
      v.i.toNat = q ∧ v.len.toNat = len.toNat - q ∧
      Buffers v.ctx (s.absorb Fips180.compress (ptr.take (q - i.toNat))) := by
  induction ptr generalizing ctx s i with
  | nil => simp only [List.length_nil] at readable; omega
  | cons byte ptr inductionHypothesis =>
    have below : i < len := UInt32.lt_iff_toNat_lt.mpr (by omega)
    have next := counter_succ below
    have split : q - i.toNat = (q - (i + 1).toNat) + 1 := by omega
    obtain ⟨after, stored, msglen, index, pushed⟩ := putByte_push ctx s holds byte
    simp only [List.length_cons] at readable
    by_cases full : after.index = 64
    · have filled : after.index.toNat = 64 := by rw [full]; rfl
      have last : q - (i + 1).toNat = 0 := by omega
      have left : (len - 1 - i).toNat = len.toNat - q := by rw [left_toNat below]; omega
      rw [if_pos full] at pushed
      refine ⟨⟨sha256Submit after, ptr, i + 1, len - 1 - i⟩, ?_, msglen, rfl,
        by dsimp only; omega, left, ?_⟩
      · -- `i` has counted `q` bytes, which is as much as the new `len`
        rw [completeBlock_round ptr below stored, if_pos full]
        exact completeBlock_stop _ _ _ _ (by rw [UInt32.lt_iff_toNat_lt]; omega)
      · rw [split, last, List.take_succ_cons, absorb_cons]
        simpa using pushed
    · have partly : ¬ after.index.toNat = 64 := fun filled => full (UInt32.toNat_inj.mp filled)
      rw [if_neg full] at pushed
      obtain ⟨v, run, sameMsglen, zero, counter, rest, absorbed⟩ :=
        inductionHypothesis after _ pushed (i + 1) (by omega) (by omega) (by omega)
      refine ⟨v, ?_, sameMsglen.trans msglen, zero, counter, rest, ?_⟩
      · rw [← run, completeBlock_round ptr below stored, if_neg full]
      · rw [split, List.take_succ_cons, absorb_cons]
        exact absorbed

theorem updateChunk_overshoot (ctx : Sha256Ctx) (message chunk : List UInt8)
    (hashed : Hashed ctx message) (room : message.length + chunk.length < 2 ^ 32)
    (inside : 0 < message.length % 64) (crosses : 64 < message.length % 64 + chunk.length)
    (near : message.length % 64 + chunk.length ≤ 128 - message.length % 64) :
    ∃ after, updateChunk ctx chunk = some after ∧ after.index = 0 := by
  have small : chunk.length < 2 ^ 32 := by omega
  have length : (UInt32.ofNat chunk.length).toNat = chunk.length := UInt32.toNat_ofNat_of_lt' small
  have index := hashed.index
  have counted := hashed.counted
  have nonempty : ¬ UInt32.ofNat chunk.length = 0 := by
    rw [← UInt32.toNat_inj, length]; simp only [UInt32.toNat_zero]; omega
  have begun : ctx.index ≠ 0 := by
    rw [ne_eq, ← UInt32.toNat_inj, index]; simp only [UInt32.toNat_zero]; omega
  have start : ctx.index.toNat + (64 - message.length % 64 - (0 : UInt32).toNat) = 64 := by
    simp only [UInt32.toNat_zero]; omega
  obtain ⟨v, run, -, zero, counter, rest, -⟩ := completeBlock_overshoot _ _
    (hashed.buffers.recount (ctx.msglen + UInt32.ofNat chunk.length)) chunk 0
      (UInt32.ofNat chunk.length)
    (64 - message.length % 64) start (by simp only [UInt32.toNat_zero]; omega) (by omega)
    (by omega) (by omega)
  have update := sha256Update_begun nonempty (by rw [counted, length]; exact room) begun run
    (by rw [rest, length]; omega) (by rw [rest, counter]; omega)
  refine ⟨v.ctx, ?_, zero⟩
  rw [updateChunk, if_pos small, update]
  rfl

/-- Two calls that meet on the block boundary are not one call. -/
theorem chunkingLaw_overshoot (ctx : Sha256Ctx) (message a b : List UInt8)
    (hashed : Hashed ctx message) (room : message.length + (a.length + b.length) < 2 ^ 32)
    (inside : 0 < message.length % 64) (meets : message.length % 64 + a.length = 64)
    (rest : 0 < b.length) (near : b.length ≤ a.length) :
    ¬ ChunkingLaw ctx a b := by
  rintro ⟨parted, whole, partedRun, wholeRun, observed⟩
  have fits : AllFit message.length [a, b] := ⟨Or.inr (by omega), Or.inl (by omega), trivial⟩
  obtain ⟨_, sameRun, partedHashed⟩ := updateAll_hashed hashed [a, b] (by simpa using room) fits
  obtain rfl := Option.some.inj (partedRun.symm.trans sameRun)
  obtain ⟨after, run, zero⟩ := updateChunk_overshoot ctx message (a ++ b) hashed
    (by rw [List.length_append]; exact room) inside (by rw [List.length_append]; omega)
    (by rw [List.length_append]; omega)
  obtain rfl : after = whole := by simpa [updateAll, run] using wholeRun
  -- the two calls have `b` pending, the single one has nothing
  have index : parted.index = after.index := congrArg (fun view => view.2.1) observed
  have pending := partedHashed.index
  rw [index, zero, UInt32.toNat_zero] at pending
  simp only [List.flatten_cons, List.flatten_nil, List.append_nil, List.length_append] at pending
  omega

/-- One byte, then 63 and 1 more: the single call for the 64 bytes drops the last one. -/
theorem sha256Update_chunking_fails :
    ∃ ctx, updateAll (sha256Reset Sha256Ctx.zero).2 [[0]] = some ctx ∧
      ctx.msglen.toNat + ((List.replicate 63 (0 : UInt8)).length + [(0 : UInt8)].length) < 2 ^ 32 ∧
      ¬ ChunkingLaw ctx (List.replicate 63 0) [0] := by
  obtain ⟨ctx, run, hashed⟩ :=
    updateAll_hashed (sha256Reset_hashed Sha256Ctx.zero) [[0]] (by decide)
    ⟨Or.inl rfl, trivial⟩
  refine ⟨ctx, run, by rw [hashed.counted]; decide, ?_⟩
  exact chunkingLaw_overshoot ctx _ _ _ hashed (by decide) (by decide) (by decide)
    (by decide) (by decide)

end NuLab.Sha256
