import NuLab.Sha256.Midstate

/-! # The double hash of `sha256_cont_then_sha256_result`

The first hash of the whole message is right wherever the message is split.  The
second one is taken over the whole of `mid_sum`, which has twice the size of the
first hash: what the caller left in its second half is hashed, too.
-/

namespace NuLab.Sha256

open NuLab.BlockFold

/-- What `sha256_begin`, `sha256_cont_then_sha256_result` and `sha256_result`, called in this
order, leave in the output. -/
def midsumDigest (ctx : Sha256Ctx) (p q : List UInt8) (midSum : Vector UInt8 64) :
    Option (Vector UInt8 32) := do
  let (_, ctx) ← sha256Begin ctx p (UInt32.ofNat p.length)
  let (_, _, ctx) ← sha256ContThenSha256Result ctx q (UInt32.ofNat q.length) midSum
  some (sha256Result ctx).2

/-! ## The first hash -/

/-- The byte loop appends to what is hashed; the length is up to its caller. -/
theorem hashBytes_hashed {ctx : Sha256Ctx} {message : List UInt8} (hashed : Hashed ctx message)
    (msg : List UInt8) (room : message.length + msg.length < 2 ^ 32) (msglen : UInt32)
    (counted : msglen.toNat = message.length + msg.length) :
    ∃ after, hashBytes ctx msg (UInt32.ofNat msg.length) = some after ∧ after.msglen = ctx.msglen ∧
      Hashed { after with msglen := msglen } (message ++ msg) := by
  have length : (UInt32.ofNat msg.length).toNat = msg.length :=
    UInt32.toNat_ofNat_of_lt' (Nat.lt_of_le_of_lt
    (Nat.le_add_left _ _) room)
  obtain ⟨v, run, same, -, absorbed⟩ :=
    copyTail_spec ctx _ hashed.buffers msg 0 (UInt32.ofNat msg.length)
    (by rw [length]; exact Nat.sub_le _ _)
  rw [length, UInt32.toNat_zero, Nat.sub_zero, List.take_length, hashStream,
    ← absorb_append] at absorbed
  refine ⟨v.ctx, by rw [hashBytes, run, Option.map_some], same, ?_, ?_⟩
  · exact ⟨absorbed.acc, absorbed.pending, absorbed.index⟩
  · rw [List.length_append]
    exact counted

theorem sha256Begin_hashed (ctx : Sha256Ctx) (p : List UInt8) (short : p.length < 2 ^ 32) :
    ∃ begun, sha256Begin ctx p (UInt32.ofNat p.length) = some (0, begun) ∧ Hashed begun p := by
  have reset := sha256Reset_hashed ctx
  obtain ⟨after, run, -, hashed⟩ :=
    hashBytes_hashed reset p (by rw [List.length_nil, Nat.zero_add]; exact short)
    (UInt32.ofNat p.length)
    (by rw [List.length_nil, Nat.zero_add]; exact UInt32.toNat_ofNat_of_lt' short)
  refine ⟨{ after with msglen := UInt32.ofNat p.length }, ?_, hashed⟩
  simp only [sha256Reset] at run
  simp [sha256Begin, sha256Reset, run]

/-! ## The second hash -/

theorem storeResult_toList (midSum : Vector UInt8 64) (sum : Vector UInt8 32) :
    (storeResult midSum sum).toList = sum.toList ++ midSum.toList.drop 32 := by
  rw [storeResult, Vector.toList_cast, Vector.toList_append, Vector.toList_drop]

theorem sha256ContThenSha256Result_hashed {ctx : Sha256Ctx} {p : List UInt8} (hashed : Hashed ctx p)
    (q : List UInt8) (short : p.length + q.length < 2 ^ 32) (midSum : Vector UInt8 64) :
    ∃ sum after,
      sha256ContThenSha256Result ctx q (UInt32.ofNat q.length) midSum = some (0, sum, after) ∧
      (sha256Result after).2.toList =
        Fips180.sha256 (Fips180.sha256 (p ++ q) ++ midSum.toList.drop 32) := by
  have qLength : (UInt32.ofNat q.length).toNat = q.length :=
    UInt32.toNat_ofNat_of_lt' (Nat.lt_of_le_of_lt (Nat.le_add_left _ _) short)
  obtain ⟨whole, run, same, wholeHashed⟩ :=
    hashBytes_hashed hashed q short (ctx.msglen + UInt32.ofNat q.length)
      (by rw [UInt32.toNat_add, hashed.counted, qLength, Nat.mod_eq_of_lt short])
  obtain ⟨finished, finish, first⟩ := sha256Finish_hashed _ _ wholeHashed
  -- 64 bytes are hashed from a reset context: the first hash and the rest of `mid_sum`
  obtain ⟨updated, update, secondHashed⟩ := sha256Update_hashed (sha256Reset finished).2 []
    (storeResult midSum (sha256Result finished).2).toList 64 (sha256Reset_hashed finished)
    (by simp) (by decide)
    (Or.inl rfl)
  rw [List.nil_append, List.take_of_length_le (by simp), storeResult_toList, first] at secondHashed
  obtain ⟨after, last, second⟩ := sha256Finish_hashed _ _ secondHashed
  refine ⟨storeResult midSum (sha256Result finished).2, after, ?_, second⟩
  unfold sha256ContThenSha256Result
  simp only [Option.bind_eq_bind, run, Option.bind_some, same, finish, ne_eq, not_true,
    if_false, update, last]

theorem midsumDigest_spec (ctx : Sha256Ctx) (p q : List UInt8) (midSum : Vector UInt8 64)
    (short : p.length + q.length < 2 ^ 32) :
    ∃ out, midsumDigest ctx p q midSum = some out ∧
      out.toList = Fips180.sha256 (Fips180.sha256 (p ++ q) ++ midSum.toList.drop 32) := by
  obtain ⟨begun, begin', hashed⟩ := sha256Begin_hashed ctx p (by omega)
  obtain ⟨sum, after, run, value⟩ := sha256ContThenSha256Result_hashed hashed q short midSum
  refine ⟨(sha256Result after).2, ?_, value⟩
  simp only [midsumDigest, begin', run, Option.bind_eq_bind, Option.bind_some]

/-! ## Against `hash256_digest` -/

/-- Two different messages with one SHA-256 hash. -/
def Collide (message message' : List UInt8) : Prop :=
  message ≠ message' ∧ Fips180.sha256 message = Fips180.sha256 message'

theorem collide_padded (message : List UInt8) (midSum : Vector UInt8 64) :
    Collide (message ++ midSum.toList.drop 32) message ↔
      Fips180.sha256 (message ++ midSum.toList.drop 32) = Fips180.sha256 message := by
  refine and_iff_right ?_
  intro same
  have lengths := congrArg List.length same
  simp at lengths

/-- The digest is the double hash only where SHA-256 has a collision between the first hash and the
first hash with the 32 bytes behind it that `mid_sum` had before the call. -/
theorem midsumDigest_iff (ctx : Sha256Ctx) (p q : List UInt8) (midSum : Vector UInt8 64)
    (buf : Vector UInt8 32) (short : p.length + q.length < 2 ^ 32) :
    ∃ out sum, midsumDigest ctx p q midSum = some out ∧
      hash256Digest (p ++ q) (UInt32.ofNat (p.length + q.length)) buf = some (0, sum) ∧
      (out = sum ↔ Collide (Fips180.sha256 (p ++ q) ++ midSum.toList.drop 32)
        (Fips180.sha256 (p ++ q))) := by
  have length : (UInt32.ofNat (p.length + q.length)).toNat = (p ++ q).length := by
    rw [UInt32.toNat_ofNat_of_lt' short, List.length_append]
  obtain ⟨out, run, value⟩ := midsumDigest_spec ctx p q midSum short
  obtain ⟨sum, digest, expected⟩ :=
    hash256Digest_spec (p ++ q) (UInt32.ofNat (p.length + q.length)) buf
    (Nat.le_of_eq length)
  rw [length, List.take_length] at expected
  refine ⟨out, sum, run, digest, ?_⟩
  rw [collide_padded, ← value, ← expected, Vector.toList_inj]

theorem midsumDigest_iff_ab :
    ∃ out sum, midsumDigest Sha256Ctx.zero [0x61] [0x62] (Vector.replicate 64 0) = some out ∧
      hash256Digest [0x61, 0x62] 2 (Vector.replicate 32 0) = some (0, sum) ∧
      (out = sum ↔
        Collide (Fips180.sha256 [0x61, 0x62] ++ (Vector.replicate 64 (0 : UInt8)).toList.drop 32)
          (Fips180.sha256 [0x61, 0x62])) :=
  midsumDigest_iff Sha256Ctx.zero [0x61] [0x62] (Vector.replicate 64 0)
    (Vector.replicate 32 0) (by decide)

/-- With zeros in `mid_sum` the digest of two bytes is another one. -/
theorem midsumDigest_differs :
    ¬ ∀ (ctx : Sha256Ctx) (p q : List UInt8) (midSum : Vector UInt8 64) (buf : Vector UInt8 32),
      p.length + q.length < 2 ^ 32 → ∃ out, midsumDigest ctx p q midSum = some out ∧
        hash256Digest (p ++ q) (UInt32.ofNat (p.length + q.length)) buf = some (0, out) := by
  intro always
  obtain ⟨out, run, digest⟩ :=
    always Sha256Ctx.zero [0x61] [0x62] (Vector.replicate 64 0) (Vector.replicate 32 0)
    (by decide)
  obtain ⟨out', run', value⟩ :=
    midsumDigest_spec Sha256Ctx.zero [0x61] [0x62] (Vector.replicate 64 0) (by decide)
  obtain ⟨sum, digest', expected⟩ :=
    hash256Digest_spec [0x61, 0x62] 2 (Vector.replicate 32 0) (by decide)
  rw [run, Option.some.injEq] at run'
  have same : some ((0 : Int), sum) = some (0, out) := digest'.symm.trans digest
  obtain rfl : sum = out := by simpa using same
  rw [← run', expected] at value
  revert value
  decide +kernel

end NuLab.Sha256
