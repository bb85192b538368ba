import NuLab.Sha256.Stream

/-! # Padding and digests

`sha256_finish` turns the pending bytes into the last one or two blocks of the
padded message, so a digest is the FIPS 180-4 hash whatever the length modulo 64.
-/

namespace NuLab.Sha256

open NuLab.Bytes NuLab.BlockFold

/-! ## `sha256_finish` -/

theorem sha256FillZeros_spec (ctx : Sha256Ctx) (inside : ctx.index.toNat ≤ 64) :
    ∃ after, sha256FillZeros ctx = some after ∧ after.hash = ctx.hash ∧ after.msglen = ctx.msglen ∧
      after.index = ctx.index ∧ after.block.toList =
        ctx.block.toList.take ctx.index.toNat ++ List.replicate (64 - ctx.index.toNat) 0 := by
  have count : (64 - ctx.index).toNat = 64 - ctx.index.toNat :=
    UInt32.toNat_sub_of_le _ _ (UInt32.le_iff_toNat_le.mpr (by simpa using inside))
  simp only [sha256FillZeros, count, show ctx.index.toNat + (64 - ctx.index.toNat) ≤
    64 by omega, if_true]
  refine ⟨_, rfl, rfl, rfl, rfl, ?_⟩
  apply List.ext_getElem
  · simp only [Vector.length_toList, List.length_append, List.length_take, List.length_replicate];
      omega
  · intro k small _
    simp only [Vector.length_toList] at small
    by_cases old : k < ctx.index.toNat
    · rw [List.getElem_append_left (by simp only [List.length_take, Vector.length_toList]; omega)]
      simp [show ¬ ctx.index.toNat ≤ k by omega]
    · rw [List.getElem_append_right (by simp only [List.length_take, Vector.length_toList]; omega)]
      simp [show ctx.index.toNat ≤ k by omega]

theorem bitlen_byte (bitlen shift : UInt64) (bound : shift.toNat < 64) :
    (bitlen >>> shift).toUInt8 = UInt8.ofNat (bitlen.toNat / 2 ^ shift.toNat) := by
  apply UInt8.toNat_inj.mp
  rw [UInt64.toNat_toUInt8, UInt64.toNat_shiftRight, Nat.mod_eq_of_lt bound,
    Nat.shiftRight_eq_div_pow, UInt8.toNat_ofNat']

theorem storeBitlen_toList (block : Vector UInt8 64) (bitlen : UInt64) :
    (storeBitlen block bitlen).toList = block.toList.take 56 ++ toBE 8 bitlen.toNat := by
  have prefixLength : (block.toList.take 56).length = 56 := by simp
  have suffixLength : (block.toList.drop 56).length = 8 := by simp
  obtain ⟨x0, x1, x2, x3, x4, x5, x6, x7, suffix⟩ : ∃ x0 x1 x2 x3 x4 x5 x6 x7,
      block.toList.drop 56 = [x0, x1, x2, x3, x4, x5, x6, x7] := by
    match block.toList.drop 56, suffixLength with
    | [x0, x1, x2, x3, x4, x5, x6, x7], _ => exact ⟨x0, x1, x2, x3, x4, x5, x6, x7, rfl⟩
  have stored : (storeBitlen block bitlen).toList = block.toList.take 56 ++
      [(bitlen >>> 56).toUInt8, (bitlen >>> 48).toUInt8, (bitlen >>> 40).toUInt8,
        (bitlen >>> 32).toUInt8, (bitlen >>> 24).toUInt8, (bitlen >>> 16).toUInt8,
        (bitlen >>> 8).toUInt8, bitlen.toUInt8] := by
    simp only [storeBitlen, Vector.toList_set]
    rw [← List.take_append_drop 56 block.toList, suffix]
    generalize block.toList.take 56 = front at prefixLength
    simp [prefixLength]
  have bytes : toBE 8 bitlen.toNat =
      [(bitlen >>> 56).toUInt8, (bitlen >>> 48).toUInt8, (bitlen >>> 40).toUInt8,
        (bitlen >>> 32).toUInt8, (bitlen >>> 24).toUInt8, (bitlen >>> 16).toUInt8,
        (bitlen >>> 8).toUInt8, bitlen.toUInt8] := by
    rw [bitlen_byte _ 56 (by decide), bitlen_byte _ 48 (by decide), bitlen_byte _ 40 (by decide),
      bitlen_byte _ 32 (by decide), bitlen_byte _ 24 (by decide), bitlen_byte _ 16 (by decide),
      bitlen_byte _ 8 (by decide)]
    simp [toBE, toLE, Nat.div_div_eq_div_mul, UInt8.ofNat_uInt64ToNat]
  rw [stored, bytes]

/-- The bytes `sha256_finish` adds to a message that leaves `pending` bytes in the buffer. -/
def finishBytes (pending : Nat) (msglen : UInt32) : List UInt8 :=
  0x80 :: (List.replicate (Fips180.zeroBytes pending) 0 ++ toBE 8 (8 * msglen.toNat))

theorem bitlen_toNat (msglen : UInt32) : (8 * msglen.toUInt64).toNat = 8 * msglen.toNat := by
  have := msglen.toNat_lt
  rw [UInt64.toNat_mul, UInt32.toNat_toUInt64]
  simp only [UInt64.reduceToNat]
  omega

/-- The length block behind at least `0x80`: `sha256_finish` from its second fill on. -/
theorem finish_block (ctx : Sha256Ctx) (front : List UInt8) (inside : ctx.index.toNat ≤ 56)
    (bytes : ctx.block.toList.take ctx.index.toNat = front) :
    ∃ filled, sha256FillZeros ctx = some filled ∧
      (sha256Submit { filled with
        block := storeBitlen filled.block (8 * ctx.msglen.toUInt64)
        index := 64 }).hash = Fips180.compress ctx.hash (front ++
          (List.replicate (56 - ctx.index.toNat) 0 ++ toBE 8 (8 * ctx.msglen.toNat))) := by
  obtain ⟨filled, run, sameHash, -, -, block⟩ := sha256FillZeros_spec ctx (by omega)
  refine ⟨filled, run, ?_⟩
  have length : front.length = ctx.index.toNat := by
    rw [← bytes, List.length_take, Vector.length_toList]; omega
  have kept : filled.block.toList.take 56 = front ++ List.replicate (56 - ctx.index.toNat) 0 := by
    rw [block, bytes, List.take_append, List.take_of_length_le (by omega),
      List.take_replicate, length]
    congr 2
    omega
  rw [sha256Submit_hash, sameHash, storeBitlen_toList, kept, bitlen_toNat, List.append_assoc]

theorem sha256Finish_early (ctx : Sha256Ctx) (s : HashStream) (holds : Buffers ctx s)
    (early : s.pending.length < 56) :
    ∃ after, sha256Finish ctx = some (0, after) ∧
      after.hash = (s.absorb Fips180.compress (finishBytes s.pending.length ctx.msglen)).acc := by
  have room : ¬ 56 ≤ ctx.index := by
    rw [UInt32.le_iff_toNat_le, holds.index]; simpa using early
  obtain ⟨padded, stored, hash, msglen, index, bytes⟩ := putByte_spec ctx 0x80 holds.index_lt
  rw [holds.pending] at bytes
  rw [holds.index] at index
  obtain ⟨last, run, lastHash⟩ := finish_block padded _ (by omega) bytes
  have added : finishBytes s.pending.length ctx.msglen =
      0x80 :: (List.replicate (56 - padded.index.toNat) 0 ++ toBE 8 (8 * ctx.msglen.toNat)) := by
    have zeros : Fips180.zeroBytes s.pending.length = 56 - padded.index.toNat := by
      simp only [Fips180.zeroBytes]; omega
    rw [finishBytes, zeros]
  refine ⟨sha256Submit { last with
    block := storeBitlen last.block (8 * ctx.msglen.toUInt64)
    index := 64 }, ?_, ?_⟩
  · rw [sha256Finish, if_neg room, stored]
    simp only [Option.bind_eq_bind, Option.bind_some]
    rw [run, Option.bind_some]
  · have full : s.pending.length + (finishBytes s.pending.length ctx.msglen).length = 64 := by
      rw [added]
      simp only [List.length_cons, List.length_append, List.length_replicate, toBE_length]
      omega
    rw [absorb_fill_acc Fips180.compress s _ full, added, ← msglen, lastHash, hash, holds.acc,
      List.append_assoc, List.singleton_append]

/-- No room for the length: the pending bytes and `0x80` get a block of their own. -/
theorem sha256Finish_late (ctx : Sha256Ctx) (s : HashStream) (holds : Buffers ctx s)
    (late : 56 ≤ s.pending.length) :
    ∃ after, sha256Finish ctx = some (0, after) ∧
      after.hash = (s.absorb Fips180.compress (finishBytes s.pending.length ctx.msglen)).acc := by
  have short := s.short
  have noRoom : 56 ≤ ctx.index := by
    rw [UInt32.le_iff_toNat_le, holds.index]; simpa using late
  obtain ⟨padded, stored, hash, msglen, index, bytes⟩ := putByte_spec ctx 0x80 holds.index_lt
  rw [holds.pending] at bytes
  rw [holds.index] at index
  -- the first block is filled with zeros and submitted, the second is zeros and the length
  obtain ⟨first, firstRun, firstHash, firstLength, -, firstBlock⟩ :=
    sha256FillZeros_spec padded (by omega)
  rw [bytes, index, show 64 - (s.pending.length + 1) = 63 -
    s.pending.length by omega, List.append_assoc, List.singleton_append] at firstBlock
  obtain ⟨last, lastRun, lastHash⟩ := finish_block (sha256Submit first) [] (by simp) (by simp)
  rw [sha256Submit_hash first, sha256Submit_msglen, sha256Submit_index, firstHash, firstLength,
    msglen, hash, holds.acc, firstBlock, UInt32.toNat_zero, Nat.sub_zero,
    List.nil_append] at lastHash
  have cut : finishBytes s.pending.length ctx.msglen =
    (0x80 :: List.replicate (63 - s.pending.length) 0) ++
      (List.replicate 56 0 ++ toBE 8 (8 * ctx.msglen.toNat)) := by
    have zeros : Fips180.zeroBytes s.pending.length = (63 - s.pending.length) + 56 := by
      simp only [Fips180.zeroBytes]; omega
    simp only [finishBytes, zeros, ← List.replicate_append_replicate, List.cons_append,
      List.append_assoc]
  have whole := absorb_fill Fips180.compress s (0x80 :: List.replicate (63 - s.pending.length) 0)
    (by simp only [List.length_cons, List.length_replicate]; omega)
  refine ⟨sha256Submit { last with
    block := storeBitlen last.block (8 * ctx.msglen.toUInt64)
    index := 64 }, ?_, ?_⟩
  · rw [sha256Finish, if_pos noRoom, stored, Option.bind_eq_bind, Option.bind_some, firstRun,
      Option.bind_some, Option.bind_some]
    beta_reduce
    rw [lastRun, Option.bind_some]
  · rw [cut, absorb_append, whole, absorb_block _ _ _ _ (by simp [toBE_length])]
    exact lastHash

theorem sha256Finish_spec (ctx : Sha256Ctx) (s : HashStream) (holds : Buffers ctx s) :
    ∃ after, sha256Finish ctx = some (0, after) ∧
      after.hash = (s.absorb Fips180.compress (finishBytes s.pending.length ctx.msglen)).acc := by
  cases Nat.lt_or_ge s.pending.length 56 with
  | inl early => exact sha256Finish_early ctx s holds early
  | inr late => exact sha256Finish_late ctx s holds late

/-! ## Digests -/

/-- The context after hashing `message` from a reset. -/
structure Hashed (ctx : Sha256Ctx) (message : List UInt8) : Prop where
  buffers : Buffers ctx (hashStream message)
  counted : ctx.msglen.toNat = message.length

theorem sha256Reset_hashed (ctx : Sha256Ctx) : Hashed (sha256Reset ctx).2 [] :=
  ⟨sha256Reset_buffers ctx, rfl⟩

theorem Hashed.index {ctx : Sha256Ctx} {message : List UInt8} (hashed : Hashed ctx message) :
    ctx.index.toNat = message.length % 64 := by
  rw [hashed.buffers.index, hashStream, absorb_pending_length]
  simp [HashStream.start]

theorem sha256Update_hashed (ctx : Sha256Ctx) (message msg : List UInt8) (len : UInt32)
    (hashed : Hashed ctx message) (readable : len.toNat ≤ msg.length)
    (room : message.length + len.toNat < 2 ^ 32)
    (fits : message.length % 64 = 0 ∨ message.length % 64 + len.toNat ≤ 64) :
    ∃ after, sha256Update ctx msg len = some (0, after) ∧
      Hashed after (message ++ msg.take len.toNat) := by
  have fitsCtx : Fits ctx len := by
    rw [Fits, ← UInt32.toNat_inj, hashed.index]
    exact fits
  obtain ⟨after, run, msglen, absorbed⟩ := sha256Update_fits ctx _ hashed.buffers msg len readable
    (by rw [hashed.counted]; exact room) fitsCtx
  refine ⟨after, run, by rw [hashStream, absorb_append]; exact absorbed, ?_⟩
  rw [msglen, UInt32.toNat_add, hashed.counted, List.length_append, List.length_take,
    Nat.min_eq_left readable, Nat.mod_eq_of_lt room]

theorem zeroBytes_mod (length : Nat) :
    Fips180.zeroBytes (length % 64) = Fips180.zeroBytes length := by
  simp [Fips180.zeroBytes]

/-- Finishing a context that hashed `message` leaves the hash words of the standard. -/
theorem sha256Finish_hashed (ctx : Sha256Ctx) (message : List UInt8) (hashed : Hashed ctx message) :
    ∃ after, sha256Finish ctx = some (0, after) ∧ (sha256Result after).2.toList =
      Fips180.sha256 message := by
  obtain ⟨after, run, hash⟩ := sha256Finish_spec ctx _ hashed.buffers
  have pending : (hashStream message).pending.length = message.length % 64 := by
    rw [hashStream, absorb_pending_length]; simp [HashStream.start]
  -- message and finishing bytes together are the padded message, a whole number of blocks
  have whole := absorb_blocks Fips180.compress HashStream.start (Fips180.pad message) _
    (Fips180.pad_length message) rfl
  have padded : finishBytes (hashStream message).pending.length ctx.msglen =
      Fips180.padding message.length := by
    rw [pending, finishBytes, zeroBytes_mod, hashed.counted]; rfl
  rw [padded, ← absorb_append] at hash
  refine ⟨after, run, ?_⟩
  have final : after.hash = (BlockFold.blocks 64 (Fips180.pad message)).foldl Fips180.compress
    Fips180.initialHash :=
    hash.trans (congrArg Stream.acc whole)
  simp only [sha256Result, Vector.toList, resultBytes_eq, final, Fips180.sha256]

theorem sha256Digest_spec (msg : List UInt8) (len : UInt32) (buf : Vector UInt8 32)
    (readable : len.toNat ≤ msg.length) :
    ∃ sum, sha256Digest msg len buf = some (0, sum) ∧
      sum.toList = Fips180.sha256 (msg.take len.toNat) := by
  obtain ⟨updated, update, hashed⟩ :=
    sha256Update_hashed _ [] msg len (sha256Reset_hashed Sha256Ctx.zero) readable
    (by simpa using len.toNat_lt) (Or.inl rfl)
  obtain ⟨finished, finish, result⟩ := sha256Finish_hashed updated _ hashed
  refine ⟨_, ?_, result⟩
  simp only [sha256Digest, sha256Reset] at update ⊢
  simp [update, finish, sha256Result]

theorem hash256Digest_spec (msg : List UInt8) (len : UInt32) (buf : Vector UInt8 32)
    (readable : len.toNat ≤ msg.length) :
    ∃ sum, hash256Digest msg len buf = some (0, sum) ∧
      sum.toList = Fips180.sha256 (Fips180.sha256 (msg.take len.toNat)) := by
  obtain ⟨tmp, first, firstSum⟩ := sha256Digest_spec msg len (Vector.replicate 32 0) readable
  obtain ⟨sum, second, secondSum⟩ := sha256Digest_spec tmp.toList 32 buf (by simp)
  refine ⟨sum, by simp [hash256Digest, first, second], ?_⟩
  rw [secondSum, List.take_of_length_le (by simp), firstSum]

/-- Double SHA-256. -/
def hash256 (message : List UInt8) : Vector UInt8 32 :=
  ⟨(Fips180.sha256 (Fips180.sha256 message)).toArray, by
    rw [List.size_toArray, Fips180.sha256, Fips180.writeWords_length]⟩

theorem eq_hash256 {sum : Vector UInt8 32} {message : List UInt8}
    (value : sum.toList = Fips180.sha256 (Fips180.sha256 message)) : sum = hash256 message :=
  Vector.toList_inj.mp (value.trans (by rw [hash256, Vector.toList_mk, List.toList_toArray]))

/-- For every message shorter than 2³² bytes, whatever follows it in memory, the digests are
those of FIPS 180-4. -/
theorem sha256Digest_fips180 (msg rest : List UInt8) (buf : Vector UInt8 32)
    (short : msg.length < 2 ^ 32) :
    (∃ sum, sha256Digest (msg ++ rest) (UInt32.ofNat msg.length) buf = some (0, sum) ∧
      sum.toList = Fips180.sha256 msg) ∧
    (∃ sum, hash256Digest (msg ++ rest) (UInt32.ofNat msg.length) buf = some (0, sum) ∧
      sum.toList = Fips180.sha256 (Fips180.sha256 msg)) := by
  have length : (UInt32.ofNat msg.length).toNat = msg.length := UInt32.toNat_ofNat_of_lt' short
  have readable : (UInt32.ofNat msg.length).toNat ≤ (msg ++ rest).length := by
    rw [length, List.length_append]; exact Nat.le_add_right _ _
  have taken : (msg ++ rest).take (UInt32.ofNat msg.length).toNat = msg := by
    rw [length, List.take_left']; rfl
  have once := sha256Digest_spec (msg ++ rest) _ buf readable
  have twice := hash256Digest_spec (msg ++ rest) _ buf readable
  rw [taken] at once twice
  exact ⟨once, twice⟩

theorem sha256Digest_fips180_abc : [0x61, 0x62, 0x63].length < 2 ^ 32 ∧
    ∃ sum, sha256Digest [0x61, 0x62, 0x63] 3 (Vector.replicate 32 0) = some (0, sum) ∧
      sum.toList = Fips180.sha256 [0x61, 0x62, 0x63] :=
  ⟨by decide, (sha256Digest_fips180 [0x61, 0x62, 0x63] [] (Vector.replicate 32 0) (by decide)).1⟩

end NuLab.Sha256
