import NuLab.Solver.FindNonce

/-! # The search of `find_nonce.c`

`bc_find_nonce` calls `find_nonce_v1` on the bytes of the block; what it prints and how
long it takes is left out.  The flag that stops searches belongs to the process.
`none` is a step outside of an array in the hash.
-/

namespace NuLab.FindNonce

open NuLab.Sha256 NuLab.Solver

def BcSuccess : Int := 0

def BcNotFound : Int := 3

def BcCanceled : Int := 4

def INT_MIN : Int := -2 ^ 31

/-- From `ctx = ctx_base` to the digest of the digest; the calls behind one
that fails are skipped. -/
def proc (ctxBase : Sha256Ctx) (noncePtr : List UInt8) (hash : Vector UInt8 32) :
    Option (Int × Vector UInt8 32) := do
  let (ec, ctx) ← sha256Update ctxBase noncePtr 4
  let (ec, ctx) ← if ec ≠ 0 then some (ec, ctx) else sha256Finish ctx
  if ec ≠ 0 then some (ec, hash)
  else
    let (ec, hashBase) := sha256Result ctx
    if ec ≠ 0 then some (ec, hash) else sha256Digest hashBase.toList 32 hash

/-- The loop from the label `proc` on: the result, the block and the flag. -/
def findNonceLoop (ctxBase : Sha256Ctx) (expect : BcHash32) (nonceMax : UInt32) (stopFlag : Bool)
    (block : BcBlockHeader) (hash : Vector UInt8 32) (nonce nonceBest : UInt32) (cmpMax : Int) :
    Option (Int × BcBlockHeader × Bool) :=
  let block := withNonce block nonce
  match proc ctxBase (block.bytes.drop 76) hash with
  | none => none
  | some (ec, hash) =>
    if ec ≠ 0 then some (ec, block, stopFlag)
    else
      let cmp := i256Compare hash expect
      let nonceBest := if cmp > cmpMax then nonce else nonceBest
      let cmpMax := if cmp > cmpMax then cmp else cmpMax
      if cmp ≠ 0 then
        if _last : nonce ≥ nonceMax then some (BcNotFound, withNonce block nonceBest, stopFlag)
        else if stopFlag then some (BcCanceled, block, stopFlag)
        else findNonceLoop ctxBase expect nonceMax stopFlag block hash (nonce + 1) nonceBest cmpMax
      -- nothing clears the flag again
      else some (BcSuccess, block, true)
termination_by nonceMax.toNat - nonce.toNat
decreasing_by
  have order := UInt32.lt_iff_toNat_lt.mp (UInt32.not_le.mp _last)
  have := nonceMax.toNat_lt
  rw [UInt32.toNat_add]
  simp only [UInt32.reduceToNat]
  omega

/-- The size of the buffer is that of a header. -/
def findNonceV1 (stopFlag : Bool) (block : BcBlockHeader) (nonceMin nonceMax : UInt32)
    (target : BcHash32) :
    Option (Int × BcBlockHeader × Bool) := do
  let ctxBase := (sha256Reset Sha256Ctx.zero).2
  let (_, ctxBase) ← sha256Update ctxBase block.bytes 76
  findNonceLoop ctxBase target nonceMax stopFlag block (Vector.replicate 32 0)
    nonceMin nonceMin INT_MIN

/-- The arguments of `bc_find_nonce`. -/
structure FindNonceCall where
  block : BcBlockHeader
  target : BcHash32
  nonceMin : UInt32
  nonceMax : UInt32
deriving DecidableEq

def bcFindNonce (stopFlag : Bool) (call : FindNonceCall) : Option (Int × BcBlockHeader × Bool) :=
  findNonceV1 stopFlag call.block call.nonceMin call.nonceMax call.target

/-! ## One nonce -/

theorem proc_hash256 {ctxBase : Sha256Ctx} {header : BcBlockHeader}
    (hashed : Hashed ctxBase (front header)) (hash : Vector UInt8 32) :
    proc ctxBase (header.bytes.drop 76) hash = some (0, hash256 header.bytes) := by
  obtain ⟨updated, update, whole⟩ := front_update hashed
  obtain ⟨finished, finish, inner⟩ := sha256Finish_hashed updated _ whole
  obtain ⟨sum, digest, value⟩ :=
    sha256Digest_spec (sha256Result finished).2.toList 32 hash (by simp)
  rw [List.take_of_length_le (by simp), inner] at value
  have same := eq_hash256 value
  simp only [proc, update, Option.bind_eq_bind, Option.bind_some, ne_eq, not_true, if_false, finish,
    digest, same, show (sha256Result finished).1 = 0 from rfl]

end NuLab.FindNonce
