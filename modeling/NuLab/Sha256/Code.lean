import Mathlib.Data.UInt

/-! # The streaming SHA-256 of `sha256.h` and `sha256.c`

A pointer is the list of the bytes readable from it on, so `*ptr++` takes the
head off and `ptr += n` drops `n` items.  `none` stands for a read behind the
end of the message or a write outside `ctx->block`: C gives the program no
meaning from there on.  Assertions are compiled out, as in the default
`RelWithDebInfo` build.
-/

namespace NuLab.Sha256

def EOVERFLOW : Int := 75

/-! ## Word functions -/

def shl (x n : UInt32) : UInt32 := x <<< (31 &&& n)

def shr (x n : UInt32) : UInt32 := x >>> (31 &&& n)

def rtr (x n : UInt32) : UInt32 := shr x n ||| shl x (32 - n)

def bsig0 (x : UInt32) : UInt32 := rtr x 2 ^^^ rtr x 13 ^^^ rtr x 22

def bsig1 (x : UInt32) : UInt32 := rtr x 6 ^^^ rtr x 11 ^^^ rtr x 25

def ssig0 (x : UInt32) : UInt32 := rtr x 7 ^^^ rtr x 18 ^^^ shr x 3

def ssig1 (x : UInt32) : UInt32 := rtr x 17 ^^^ rtr x 19 ^^^ shr x 10

def shaCh (x y z : UInt32) : UInt32 := (x &&& y) ^^^ (~~~x &&& z)

def shaMaj (x y z : UInt32) : UInt32 := (x &&& y) ^^^ (x &&& z) ^^^ (y &&& z)

/-! ## Constants and context -/

def sha256K : Vector UInt32 64 := #v[
  0x428a2f98, 0x71374491, 0xb5c0fbcf, 0xe9b5dba5, 0x3956c25b, 0x59f111f1,
  0x923f82a4, 0xab1c5ed5, 0xd807aa98, 0x12835b01, 0x243185be, 0x550c7dc3,
  0x72be5d74, 0x80deb1fe, 0x9bdc06a7, 0xc19bf174, 0xe49b69c1, 0xefbe4786,
  0x0fc19dc6, 0x240ca1cc, 0x2de92c6f, 0x4a7484aa, 0x5cb0a9dc, 0x76f988da,
  0x983e5152, 0xa831c66d, 0xb00327c8, 0xbf597fc7, 0xc6e00bf3, 0xd5a79147,
  0x06ca6351, 0x14292967, 0x27b70a85, 0x2e1b2138, 0x4d2c6dfc, 0x53380d13,
  0x650a7354, 0x766a0abb, 0x81c2c92e, 0x92722c85, 0xa2bfe8a1, 0xa81a664b,
  0xc24b8b70, 0xc76c51a3, 0xd192e819, 0xd6990624, 0xf40e3585, 0x106aa070,
  0x19a4c116, 0x1e376c08, 0x2748774c, 0x34b0bcb5, 0x391c0cb3, 0x4ed8aa4a,
  0x5b9cca4f, 0x682e6ff3, 0x748f82ee, 0x78a5636f, 0x84c87814, 0x8cc70208,
  0x90befffa, 0xa4506ceb, 0xbef9a3f7, 0xc67178f2]

def sha256H0 : Vector UInt32 8 := #v[
  0x6A09E667, 0xBB67AE85, 0x3C6EF372, 0xA54FF53A,
  0x510E527F, 0x9B05688C, 0x1F83D9AB, 0x5BE0CD19]

/-- `sha256_ctx_t` -/
structure Sha256Ctx where
  hash : Vector UInt32 8
  block : Vector UInt8 64
  index : UInt32
  msglen : UInt32
deriving DecidableEq

/-- The zero-initialised `sha256_ctx_t ctx = {0}`. -/
def Sha256Ctx.zero : Sha256Ctx := ⟨Vector.replicate 8 0, Vector.replicate 64 0, 0, 0⟩

/-! ## One block -/

/-- The locals `a .. h` of `sha256_solve_block`. -/
structure WorkVars where
  a : UInt32
  b : UInt32
  c : UInt32
  d : UInt32
  e : UInt32
  f : UInt32
  g : UInt32
  h : UInt32

/-- Body of the loop over `t < 16`; `q` is `4 * t`. -/
def loadWord (msg : Vector UInt8 64) (w : Vector UInt32 64) (t : Nat) : Vector UInt32 64 :=
  let q := 4 * t
  w.set! t ((msg[q + 0]!.toUInt32 <<< 24) ||| (msg[q + 1]!.toUInt32 <<< 16) |||
    (msg[q + 2]!.toUInt32 <<< 8) ||| msg[q + 3]!.toUInt32)

/-- Body of the loop over `16 <= t < 64`. -/
def expandWord (w : Vector UInt32 64) (t : Nat) : Vector UInt32 64 :=
  w.set! t (ssig1 w[t - 2]! + w[t - 7]! + ssig0 w[t - 15]! + w[t - 16]!)

/-- Body of the compression loop. -/
def workRound (w : Vector UInt32 64) (v : WorkVars) (t : Nat) : WorkVars :=
  let t1 := v.h + bsig1 v.e + shaCh v.e v.f v.g + sha256K[t]! + w[t]!
  let t2 := bsig0 v.a + shaMaj v.a v.b v.c
  { h := v.g, g := v.f, f := v.e, e := v.d + t1, d := v.c, c := v.b, b := v.a, a := t1 + t2 }

@[irreducible] def sha256SolveBlock (block : Vector UInt8 64) (hash : Vector UInt32 8) :
    Vector UInt32 8 :=
  let w := (List.range 16).foldl (loadWord block) (Vector.replicate 64 0)
  let w := (List.range' 16 48).foldl expandWord w
  let v := (List.range 64).foldl (workRound w)
    ⟨hash[0], hash[1], hash[2], hash[3], hash[4], hash[5], hash[6], hash[7]⟩
  #v[hash[0] + v.a, hash[1] + v.b, hash[2] + v.c, hash[3] + v.d,
    hash[4] + v.e, hash[5] + v.f, hash[6] + v.g, hash[7] + v.h]

def sha256Submit (ctx : Sha256Ctx) : Sha256Ctx :=
  { ctx with hash := sha256SolveBlock ctx.block ctx.hash, index := 0 }

/-- `memset(ctx->block + ctx->index, 0, n)` with `n = 64 - index` in `uint32_t`. -/
def sha256FillZeros (ctx : Sha256Ctx) : Option Sha256Ctx :=
  let n := 64 - ctx.index
  if ctx.index.toNat + n.toNat ≤ 64 then
    some { ctx with
      block := Vector.ofFn fun k => if ctx.index.toNat ≤ k.val then 0 else ctx.block[k] }
  else none

def sha256PushBlock (ctx : Sha256Ctx) (block : List UInt8) : Option Sha256Ctx :=
  if readable : 64 ≤ block.length then
    some (sha256Submit { ctx with block := ⟨(block.take 64).toArray, by simpa using readable⟩ })
  else none

/-- `ctx->block[ctx->index++] = byte` -/
def putByte (ctx : Sha256Ctx) (byte : UInt8) : Option Sha256Ctx :=
  if inside : ctx.index.toNat < 64 then
    some { ctx with block := ctx.block.set ctx.index.toNat byte, index := ctx.index + 1 }
  else none

/-! ## The streaming interface -/

def sha256Reset (_ : Sha256Ctx) : Int × Sha256Ctx :=
  (0, { Sha256Ctx.zero with hash := sha256H0 })

/-- What the loops of `sha256_update` share. -/
structure UpdateVars where
  ctx : Sha256Ctx
  ptr : List UInt8
  i : UInt32
  len : UInt32

/-- First loop: entered with a begun block.  Completing the block sets `len` to
what was left at that moment but neither leaves the loop nor resets `i`. -/
def completeBlock (ctx : Sha256Ctx) : (ptr : List UInt8) → (i len : UInt32) → Option UpdateVars
  | [], i, len => if i < len then none else some ⟨ctx, [], i, len⟩
  | byte :: ptr, i, len =>
    if i < len then
      match putByte ctx byte with
      | none => none
      | some ctx =>
        if ctx.index = 64 then completeBlock (sha256Submit ctx) ptr (i + 1) (len - 1 - i)
        else completeBlock ctx ptr (i + 1) len
    else some ⟨ctx, byte :: ptr, i, len⟩

/-- Second loop: whole blocks straight from the message. -/
def pushBlocks (ctx : Sha256Ctx) (ptr : List UInt8) (i len : UInt32) : Option UpdateVars :=
  if _large : 64 ≤ len then
    match sha256PushBlock ctx ptr with
    | none => none
    | some ctx => pushBlocks ctx (ptr.drop 64) i (len - 64)
  else some ⟨ctx, ptr, i, len⟩
termination_by len.toNat
decreasing_by
  have := UInt32.le_iff_toNat_le.mp _large
  rw [UInt32.toNat_sub_of_le _ _ _large]
  simp only [UInt32.reduceToNat] at this ⊢
  omega

/-- Third loop: the bytes of a block that stays unfinished. -/
def copyTail (ctx : Sha256Ctx) : (ptr : List UInt8) → (i len : UInt32) → Option UpdateVars
  | [], i, len => if i < len then none else some ⟨ctx, [], i, len⟩
  | byte :: ptr, i, len =>
    if i < len then
      match putByte ctx byte with
      | none => none
      | some ctx =>
        if ctx.index = 64 then copyTail (sha256Submit ctx) ptr (i + 1) len
        else copyTail ctx ptr (i + 1) len
    else some ⟨ctx, byte :: ptr, i, len⟩

def sha256Update (ctx : Sha256Ctx) (msg : List UInt8) (len : UInt32) : Option (Int × Sha256Ctx) :=
  let msglen := ctx.msglen + len
  if len = 0 then some (0, ctx)
  else if msglen < ctx.msglen then some (EOVERFLOW, ctx)
  else do
    let ctx := { ctx with msglen := msglen }
    let v ← if ctx.index ≠ 0 then completeBlock ctx msg 0 len else some ⟨ctx, msg, 0, len⟩
    -- the second loop does not use `i`, the third starts from what the first left in it
    let v ← pushBlocks v.ctx v.ptr v.i v.len
    let v ← copyTail v.ctx v.ptr v.i v.len
    some (0, v.ctx)

/-- The eight stores that put the bit length behind the padding. -/
def storeBitlen (block : Vector UInt8 64) (bitlen : UInt64) : Vector UInt8 64 :=
  ((((((((block.set 56 (bitlen >>> 56).toUInt8).set 57 (bitlen >>> 48).toUInt8).set 58
    (bitlen >>> 40).toUInt8).set 59 (bitlen >>> 32).toUInt8).set 60 (bitlen >>> 24).toUInt8).set 61
    (bitlen >>> 16).toUInt8).set 62 (bitlen >>> 8).toUInt8).set 63 bitlen.toUInt8)

def sha256Finish (ctx : Sha256Ctx) : Option (Int × Sha256Ctx) := do
  let bitlen : UInt64 := 8 * ctx.msglen.toUInt64
  let ctx ←
    -- the length needs the last eight bytes of a block
    if 56 ≤ ctx.index then do
      let ctx ← putByte ctx 0x80
      let ctx ← sha256FillZeros ctx
      some (sha256Submit ctx)
    else putByte ctx 0x80
  let ctx ← sha256FillZeros ctx
  some (0, sha256Submit { ctx with block := storeBitlen ctx.block bitlen, index := 64 })

/-- The bytes stored through `dst`, in the order of the two loops. -/
def resultBytes (hash : Vector UInt32 8) : List UInt8 :=
  hash.toList.flatMap fun word =>
    List.map (fun j : UInt32 => ((word >>> (j * 8)) &&& 0xFF).toUInt8) [3, 2, 1, 0]

theorem resultBytes_length (hash : Vector UInt32 8) : (resultBytes hash).length = 32 := by
  simp [resultBytes, List.length_flatMap]

def sha256Result (ctx : Sha256Ctx) : Int × Vector UInt8 32 :=
  (0, ⟨(resultBytes ctx.hash).toArray, by simpa using resultBytes_length ctx.hash⟩)

/-! ## One-shot hashing -/

def sha256Digest (msg : List UInt8) (len : UInt32) (buf : Vector UInt8 32) :
    Option (Int × Vector UInt8 32) := do
  let (ec, ctx) := sha256Reset Sha256Ctx.zero
  let (ec, ctx) ← if ec ≠ 0 then some (ec, ctx) else sha256Update ctx msg len
  let (ec, ctx) ← if ec ≠ 0 then some (ec, ctx) else sha256Finish ctx
  some (if ec ≠ 0 then (ec, buf) else sha256Result ctx)

/-- `tmp` is not initialised in the source; the second digest reads it only after
the first has written all of it. -/
def hash256Digest (msg : List UInt8) (len : UInt32) (buf : Vector UInt8 32) :
    Option (Int × Vector UInt8 32) := do
  let (ec, tmp) ← sha256Digest msg len (Vector.replicate 32 0)
  if ec ≠ 0 then some (ec, buf) else sha256Digest tmp.toList 32 buf

end NuLab.Sha256
