import NuLab.Sha256.Compress

/-! # The streaming context as a block stream

`Buffers ctx s` relates a context to the block stream of the bytes hashed so
far.  Every loop of `sha256_update` gets one lemma that says which bytes it
absorbs, and `sha256Update_fits` puts them together for the calls that do not cross
the end of a begun block.
-/

namespace NuLab.Sha256

open NuLab.Bytes NuLab.BlockFold

abbrev HashStream := Stream (Vector UInt32 8) UInt8 64

def HashStream.start : HashStream := ⟨Fips180.initialHash, [], by simp⟩

/-- The stream of a message hashed from the start. -/
abbrev hashStream (message : List UInt8) : HashStream :=
  HashStream.start.absorb Fips180.compress message

/-- The context holds the accumulator and the pending bytes of the stream. -/
structure Buffers (ctx : Sha256Ctx) (s : HashStream) : Prop where
  acc : ctx.hash = s.acc
  pending : ctx.block.toList.take ctx.index.toNat = s.pending
  index : ctx.index.toNat = s.pending.length

theorem Buffers.index_lt {ctx : Sha256Ctx} {s : HashStream} (holds : Buffers ctx s) :
    ctx.index.toNat < 64 := by
  rw [holds.index]; exact s.short

/-- The streamed bytes do not depend on how many bytes are counted. -/
theorem Buffers.recount {ctx : Sha256Ctx} {s : HashStream} (holds : Buffers ctx s)
    (msglen : UInt32) :
    Buffers { ctx with msglen := msglen } s := ⟨holds.acc, holds.pending, holds.index⟩

theorem Buffers.aligned {ctx : Sha256Ctx} {s : HashStream} (holds : Buffers ctx s)
    (zero : ctx.index = 0) : s.pending = [] := by
  rw [← holds.pending, zero]; simp

/-! ## One byte -/

@[simp] theorem sha256Submit_hash (ctx : Sha256Ctx) :
    (sha256Submit ctx).hash = Fips180.compress ctx.hash ctx.block.toList :=
  sha256SolveBlock_eq ctx.block ctx.hash

@[simp] theorem sha256Submit_index (ctx : Sha256Ctx) : (sha256Submit ctx).index = 0 := rfl

@[simp] theorem sha256Submit_msglen (ctx : Sha256Ctx) : (sha256Submit ctx).msglen = ctx.msglen :=
  rfl

theorem sha256Submit_buffers (ctx : Sha256Ctx) (acc : Vector UInt32 8) (block : List UInt8)
    (hash : ctx.hash = acc) (bytes : ctx.block.toList = block) :
    Buffers (sha256Submit ctx) ⟨Fips180.compress acc block, [], by decide⟩ := by
  exact ⟨by rw [sha256Submit_hash, hash, bytes], by simp, by simp⟩

theorem counter_succ {i len : UInt32} (below : i < len) : (i + 1).toNat = i.toNat + 1 := by
  have := UInt32.lt_iff_toNat_lt.mp below
  have := len.toNat_lt
  rw [UInt32.toNat_add]; simp only [UInt32.reduceToNat]; omega

/-- One of the bytes that are left. -/
theorem counter_left {i len : UInt32} (below : i < len) :
    len.toNat - i.toNat = (len.toNat - (i + 1).toNat) + 1 := by
  have order := UInt32.lt_iff_toNat_lt.mp below
  have next := counter_succ below
  omega

/-- What a whole block leaves of `len`. -/
theorem rest_toNat {len : UInt32} (large : 64 ≤ len) :
    (len - 64).toNat = len.toNat - 64 ∧ 64 ≤ len.toNat :=
  ⟨UInt32.toNat_sub_of_le _ _ large, UInt32.le_iff_toNat_le.mp large⟩

/-- A block is pushed wherever there is one. -/
theorem sha256PushBlock_enough (ctx : Sha256Ctx) {ptr : List UInt8} (enough : 64 ≤ ptr.length) :
    ∃ block, sha256PushBlock ctx ptr = some (sha256Submit { ctx with block }) :=
  ⟨⟨(ptr.take 64).toArray, by simpa using enough⟩, dif_pos enough⟩

theorem putByte_spec (ctx : Sha256Ctx) (byte : UInt8) (inside : ctx.index.toNat < 64) :
    ∃ after, putByte ctx byte = some after ∧ after.hash = ctx.hash ∧ after.msglen = ctx.msglen ∧
      after.index.toNat = ctx.index.toNat + 1 ∧
      after.block.toList.take after.index.toNat =
        ctx.block.toList.take ctx.index.toNat ++ [byte] := by
  have below : ctx.index < 64 := UInt32.lt_iff_toNat_lt.mpr inside
  have next := counter_succ below
  refine ⟨{ ctx with block := ctx.block.set ctx.index.toNat byte, index := ctx.index + 1 },
    dif_pos inside, rfl, rfl, next, ?_⟩
  simp only [next, Vector.toList_set]
  rw [List.take_succ_eq_append_getElem (by simpa using inside), List.take_set_of_le (Nat.le_refl _),
    List.getElem_set_self]

/-- One round of a byte loop pushes the byte, whether or not it completes the block. -/
theorem putByte_push (ctx : Sha256Ctx) (s : HashStream) (holds : Buffers ctx s) (byte : UInt8) :
    ∃ after, putByte ctx byte = some after ∧ after.msglen = ctx.msglen ∧
      after.index.toNat = ctx.index.toNat + 1 ∧
      Buffers (if after.index = 64 then sha256Submit after else after)
        (s.push Fips180.compress byte) := by
  obtain ⟨after, stored, hash, msglen, index, bytes⟩ := putByte_spec ctx byte holds.index_lt
  refine ⟨after, stored, msglen, index, ?_⟩
  rw [holds.pending] at bytes
  have whole : after.index = 64 ↔ s.pending.length + 1 = 64 := by
    rw [← UInt32.toNat_inj, index, holds.index]; rfl
  split
  next full =>
    rw [push_fill Fips180.compress s byte (whole.mp full)]
    apply sha256Submit_buffers after _ _ (hash.trans holds.acc)
    rw [← bytes, full]
    exact (List.take_of_length_le (by simp)).symm
  next partly =>
    have short := s.short
    rw [push_short Fips180.compress s byte (by have := mt whole.mpr partly; omega)]
    refine ⟨hash.trans holds.acc, bytes, ?_⟩
    simp only [List.length_append, List.length_singleton, index, holds.index]

/-! ## The three loops of `sha256_update` -/

theorem completeBlock_stop (ctx : Sha256Ctx) (ptr : List UInt8) (i len : UInt32)
    (done : ¬ i < len) : completeBlock ctx ptr i len = some ⟨ctx, ptr, i, len⟩ := by
  cases ptr <;> rw [completeBlock, if_neg done]

/-- One round of the first loop. -/
theorem completeBlock_round {ctx after : Sha256Ctx} {byte : UInt8} {i len : UInt32}
    (ptr : List UInt8) (below : i < len) (stored : putByte ctx byte = some after) :
    completeBlock ctx (byte :: ptr) i len =
      if after.index = 64 then completeBlock (sha256Submit after) ptr (i + 1) (len - 1 - i)
      else completeBlock after ptr (i + 1) len := by
  simp only [completeBlock, if_pos below, stored]

/-- What the first loop leaves in `len` when it completes the block. -/
theorem left_toNat {i len : UInt32} (below : i < len) :
    (len - 1 - i).toNat = len.toNat - 1 - i.toNat := by
  have order := UInt32.lt_iff_toNat_lt.mp below
  have one : (len - 1).toNat = len.toNat - 1 :=
    UInt32.toNat_sub_of_le _ _
      (UInt32.le_iff_toNat_le.mpr (by simp only [UInt32.reduceToNat]; omega))
  rw [UInt32.toNat_sub_of_le _ _ (UInt32.le_iff_toNat_le.mpr (by omega)), one]

theorem copyTail_stop (ctx : Sha256Ctx) (ptr : List UInt8) (i len : UInt32) (done : ¬ i < len) :
    copyTail ctx ptr i len = some ⟨ctx, ptr, i, len⟩ := by
  cases ptr <;> rw [copyTail, if_neg done]

theorem copyTail_spec (ctx : Sha256Ctx) (s : HashStream) (holds : Buffers ctx s) (ptr : List UInt8)
    (i len : UInt32) (readable : len.toNat - i.toNat ≤ ptr.length) :
    ∃ v, copyTail ctx ptr i len = some v ∧ v.ctx.msglen = ctx.msglen ∧
      v.ptr = ptr.drop (len.toNat - i.toNat) ∧
      Buffers v.ctx (s.absorb Fips180.compress (ptr.take (len.toNat - i.toNat))) := by
  induction ptr generalizing ctx s i with
  | nil =>
    have nothing : ¬ i < len := by
      rw [UInt32.lt_iff_toNat_lt]; simp only [List.length_nil] at readable; omega
    exact ⟨_, copyTail_stop ctx [] i len nothing, rfl, by simp, by simpa using holds⟩
  | cons byte ptr inductionHypothesis =>
    by_cases below : i < len
    · have split := counter_left below
      obtain ⟨after, stored, msglen, -, pushed⟩ := putByte_push ctx s holds byte
      obtain ⟨v, run, sameLength, rest, absorbed⟩ := inductionHypothesis
        (if after.index = 64 then sha256Submit after else after) _ pushed (i + 1)
        (by simp only [List.length_cons] at readable; omega)
      have sameMsglen : (if after.index = 64 then sha256Submit after else after).msglen =
          ctx.msglen := by
        split <;> simp [msglen]
      refine ⟨v, ?_, sameLength.trans sameMsglen, by rw [rest, split, List.drop_succ_cons], ?_⟩
      · rw [← run, copyTail, if_pos below, stored]
        by_cases full : after.index = 64 <;> simp [full]
      · rw [split, List.take_succ_cons, absorb_cons]
        exact absorbed
    · have nothing : len.toNat - i.toNat = 0 := by rw [UInt32.lt_iff_toNat_lt] at below; omega
      exact ⟨_, copyTail_stop ctx _ i len below, rfl,
        by simp [nothing], by simpa [nothing] using holds⟩

/-- As long as the bytes fit into the begun block the first loop takes them all,
and neither of the other two loops has anything left to do. -/
theorem completeBlock_fits (ctx : Sha256Ctx) (s : HashStream) (holds : Buffers ctx s)
    (ptr : List UInt8) (i len : UInt32) (begun : 0 < ctx.index.toNat)
    (fits : ctx.index.toNat + (len.toNat - i.toNat) ≤ 64) (small : len.toNat < 64)
    (readable : len.toNat - i.toNat ≤ ptr.length) :
    ∃ v, completeBlock ctx ptr i len = some v ∧ v.ctx.msglen = ctx.msglen ∧
      v.len.toNat ≤ v.i.toNat ∧ v.len.toNat < 64 ∧ v.ptr = ptr.drop (len.toNat - i.toNat) ∧
      Buffers v.ctx (s.absorb Fips180.compress (ptr.take (len.toNat - i.toNat))) := by
  induction ptr generalizing ctx s i with
  | nil =>
    simp only [List.length_nil, Nat.le_zero] at readable
    have nothing : ¬ i < len := by rw [UInt32.lt_iff_toNat_lt]; omega
    exact ⟨_, completeBlock_stop ctx [] i len nothing, rfl,
      by dsimp only; omega, small, by simp, by simpa using holds⟩
  | cons byte ptr inductionHypothesis =>
    by_cases below : i < len
    · have order := UInt32.lt_iff_toNat_lt.mp below
      have next := counter_succ below
      have split := counter_left below
      obtain ⟨after, stored, msglen, index, pushed⟩ := putByte_push ctx s holds byte
      simp only [List.length_cons] at readable
      by_cases full : after.index = 64
      · -- the block fills exactly with the last byte, so the new `len` is 0
        have filled : after.index.toNat = 64 := by rw [full]; rfl
        have last : len.toNat - (i + 1).toNat = 0 := by omega
        have left : (len - 1 - i).toNat = 0 := by rw [left_toNat below]; omega
        rw [if_pos full] at pushed
        refine ⟨⟨sha256Submit after, ptr, i + 1, len - 1 - i⟩, ?_, msglen,
          by simp [left], by simp [left], ?_, ?_⟩
        · rw [completeBlock_round ptr below stored, if_pos full]
          exact completeBlock_stop _ _ _ _ (by rw [UInt32.lt_iff_toNat_lt]; omega)
        · rw [split, last]; rfl
        · rw [split, last, List.take_succ_cons, absorb_cons]
          simpa using pushed
      · rw [if_neg full] at pushed
        obtain ⟨v, run, sameMsglen, finished, short, rest, absorbed⟩ :=
          inductionHypothesis after _ pushed (i + 1) (by omega) (by omega) (by omega)
        refine ⟨v, ?_, sameMsglen.trans msglen, finished, short,
          by rw [rest, split, List.drop_succ_cons], ?_⟩
        · rw [← run, completeBlock_round ptr below stored, if_neg full]
        · rw [split, List.take_succ_cons, absorb_cons]
          exact absorbed
    · have nothing : len.toNat - i.toNat = 0 := by rw [UInt32.lt_iff_toNat_lt] at below; omega
      exact ⟨_, completeBlock_stop ctx _ i len below, rfl,
        by dsimp only; omega, small, by simp [nothing], by simpa [nothing] using holds⟩

theorem sha256PushBlock_spec (ctx : Sha256Ctx) (s : HashStream) (holds : Buffers ctx s)
    (empty : s.pending = []) (ptr : List UInt8) (readable : 64 ≤ ptr.length) :
    ∃ after, sha256PushBlock ctx ptr = some after ∧ after.msglen = ctx.msglen ∧ after.index = 0 ∧
      Buffers after (s.absorb Fips180.compress (ptr.take 64)) := by
  refine ⟨sha256Submit { ctx with block := ⟨(ptr.take 64).toArray, by simpa using readable⟩ },
    dif_pos readable, rfl, rfl, ?_⟩
  rw [absorb_fill Fips180.compress s (ptr.take 64) (by simp [empty, readable])]
  exact sha256Submit_buffers _ _ _ holds.acc (by simp [Vector.toList, empty])

theorem pushBlocks_spec (ctx : Sha256Ctx) (s : HashStream) (holds : Buffers ctx s)
    (aligned : ctx.index = 0) (ptr : List UInt8) (i len : UInt32)
    (readable : len.toNat ≤ ptr.length) :
    ∃ v, pushBlocks ctx ptr i len = some v ∧ v.ctx.msglen = ctx.msglen ∧ v.i = i ∧
      v.len.toNat = len.toNat % 64 ∧ v.ptr = ptr.drop (64 * (len.toNat / 64)) ∧
      Buffers v.ctx (s.absorb Fips180.compress (ptr.take (64 * (len.toNat / 64)))) := by
  by_cases large : 64 ≤ len
  · obtain ⟨rest, bound⟩ := rest_toNat large
    obtain ⟨after, pushed, msglen, index, block⟩ :=
      sha256PushBlock_spec ctx s holds (holds.aligned aligned) ptr (by omega)
    obtain ⟨v, run, sameMsglen, sameIndex, remaining, pointer, absorbed⟩ :=
      pushBlocks_spec after _ block index (ptr.drop 64) i (len - 64)
        (by rw [List.length_drop]; omega)
    have count : 64 * (len.toNat / 64) = 64 + 64 * ((len - 64).toNat / 64) := by omega
    refine ⟨v, ?_, sameMsglen.trans msglen, sameIndex, by omega, ?_, ?_⟩
    · rw [← run, pushBlocks, dif_pos large, pushed]
    · rw [pointer, List.drop_drop, count]
    · rw [count, List.take_add, absorb_append]
      exact absorbed
  · have small : len.toNat < 64 := by rw [UInt32.le_iff_toNat_le] at large; simpa using large
    have none : len.toNat / 64 = 0 := by omega
    refine ⟨⟨ctx, ptr, i, len⟩, by rw [pushBlocks, dif_neg large], rfl, rfl, ?_, by simp [none], ?_⟩
    · exact (Nat.mod_eq_of_lt small).symm
    · simpa [none] using holds
termination_by len.toNat
decreasing_by omega

/-! ## `sha256_reset` and `sha256_update` -/

theorem sha256Reset_buffers (ctx : Sha256Ctx) : Buffers (sha256Reset ctx).2 HashStream.start :=
  ⟨sha256H0_eq, by simp [sha256Reset, Sha256Ctx.zero, HashStream.start], rfl⟩

/-- The call starts on a block boundary or ends inside or at the end of the block begun. -/
def Fits (ctx : Sha256Ctx) (len : UInt32) : Prop := ctx.index = 0 ∨ ctx.index.toNat + len.toNat ≤ 64

instance (ctx : Sha256Ctx) (len : UInt32) : Decidable (Fits ctx len) :=
  inferInstanceAs (Decidable (_ ∨ _))

/-- After a first loop that leaves less than a block and a counter behind it, the call has ended. -/
theorem sha256Update_begun {ctx : Sha256Ctx} {msg : List UInt8} {len : UInt32} {v : UpdateVars}
    (nonempty : len ≠ 0) (room : ctx.msglen.toNat + len.toNat < 2 ^ 32) (begun : ctx.index ≠ 0)
    (run : completeBlock { ctx with msglen := ctx.msglen + len } msg 0 len = some v)
    (short : v.len.toNat < 64) (finished : v.len.toNat ≤ v.i.toNat) : sha256Update ctx msg len =
      some (0, v.ctx) := by
  have noOverflow : ¬ ctx.msglen + len < ctx.msglen := by
    rw [UInt32.lt_iff_toNat_lt, UInt32.toNat_add, Nat.mod_eq_of_lt room]
    omega
  have noBlocks : ¬ 64 ≤ v.len := by
    rw [UInt32.le_iff_toNat_le]
    simpa using short
  have noTail : ¬ v.i < v.len := by
    rw [UInt32.lt_iff_toNat_lt]
    omega
  simp only [sha256Update, if_neg nonempty, if_neg noOverflow, if_pos begun, run,
    Option.bind_eq_bind, Option.bind_some]
  rw [pushBlocks, dif_neg noBlocks, Option.bind_some, copyTail_stop _ _ _ _ noTail,
    Option.bind_some]

theorem sha256Update_fits (ctx : Sha256Ctx) (s : HashStream) (holds : Buffers ctx s)
    (msg : List UInt8) (len : UInt32) (readable : len.toNat ≤ msg.length)
    (room : ctx.msglen.toNat + len.toNat < 2 ^ 32) (fits : Fits ctx len) :
    ∃ after, sha256Update ctx msg len = some (0, after) ∧ after.msglen = ctx.msglen + len ∧
      Buffers after (s.absorb Fips180.compress (msg.take len.toNat)) := by
  by_cases empty : len = 0
  · exact ⟨ctx, by rw [sha256Update, if_pos empty], by simp [empty], by simpa [empty] using holds⟩
  have total : (ctx.msglen + len).toNat = ctx.msglen.toNat + len.toNat := by
    rw [UInt32.toNat_add, Nat.mod_eq_of_lt room]
  have noOverflow : ¬ ctx.msglen + len < ctx.msglen := by rw [UInt32.lt_iff_toNat_lt]; omega
  have counted := holds.recount (ctx.msglen + len)
  by_cases aligned : ctx.index = 0
  · -- the first loop is skipped; the second takes the whole blocks and the third the rest
    obtain ⟨v, blocksRun, msglen, start, remaining, pointer, blocksAbsorbed⟩ :=
      pushBlocks_spec _ s counted aligned msg 0 len readable
    have left : v.len.toNat - v.i.toNat = len.toNat % 64 := by rw [remaining, start]; rfl
    obtain ⟨w, tailRun, sameMsglen, -, tailAbsorbed⟩ :=
      copyTail_spec v.ctx _ blocksAbsorbed v.ptr v.i v.len
      (by rw [left, pointer, List.length_drop]; omega)
    refine ⟨w.ctx, ?_, sameMsglen.trans msglen, ?_⟩
    · simp only [sha256Update, if_neg empty, if_neg noOverflow]
      rw [if_neg (by simpa using aligned)]
      simp only [Option.bind_eq_bind, Option.bind_some, blocksRun, tailRun]
    · rw [left, pointer, ← absorb_append, ← List.take_add, Nat.div_add_mod] at tailAbsorbed
      exact tailAbsorbed
  · have begun : 0 < ctx.index.toNat := by
      cases Nat.eq_zero_or_pos ctx.index.toNat with
      | inl zero => exact absurd (UInt32.toNat_inj.mp zero) aligned
      | inr positive => exact positive
    have inside : ctx.index.toNat + len.toNat ≤ 64 := fits.resolve_left aligned
    obtain ⟨v, run, msglen, finished, short, -, absorbed⟩ :=
      completeBlock_fits _ s counted msg 0 len begun (by simpa using inside) (by omega)
        (by simpa using readable)
    exact ⟨v.ctx, sha256Update_begun empty room aligned run short finished, msglen,
      by simpa using absorbed⟩

end NuLab.Sha256
