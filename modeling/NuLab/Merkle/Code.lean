import NuLab.Types
import NuLab.Dca.Elements
import NuLab.Sha256.Code

/-! # `bc_merkle_root.c`

The ids and the buffer are different arrays of hashes.  `op` points to the first
consumed element of the buffer, `ip` to the ids on the first level and to the same
element as `op` from then on.  An access outside the array it points into is
`none`.  An array of hashes has less than 2⁵⁹ elements, so that the `size_t`
arithmetic on their number does not wrap.
-/

namespace NuLab.Merkle

open NuLab.Dca NuLab.Sha256

/-- What `ip` points to. -/
inductive Source where
  | txids
  | op
deriving DecidableEq

structure Memory where
  txids : List BcHash32
  buf : List BcHash32
  op : Nat
deriving DecidableEq

def Memory.load (mem : Memory) (ip : Source) (i : Nat) : Option BcHash32 :=
  match ip with
  | .txids => mem.txids[i]?
  | .op => mem.buf[mem.op + i]?

def Memory.write (mem : Memory) (i : Nat) (hash : BcHash32) : Memory :=
  { mem with buf := mem.buf.set (mem.op + i) hash }

/-- `op[i] = hash` -/
def Memory.store (mem : Memory) (i : Nat) (hash : BcHash32) : Option Memory :=
  if mem.op + i < mem.buf.length then some (mem.write i hash) else none

/-- `bc_hash32_pair_hash(ip + j, op + i)`.  `hash256_digest` has read the pair
before it writes the hash. -/
def bcHash32PairHash (mem : Memory) (ip : Source) (j i : Nat) : Option Memory := do
  let left ← mem.load ip j
  let right ← mem.load ip (j + 1)
  let hash ← mem.load .op i
  let (_, hash) ← hash256Digest (left.toList ++ right.toList) 64 hash
  mem.store i hash

/-- The loop `for (; i < limit; ++i)` over the complete pairs. -/
def hashPairs (mem : Memory) (ip : Source) (limit i : Nat) : Option Memory :=
  if i < limit then do
    let mem ← bcHash32PairHash mem ip (i * 2) i
    hashPairs mem ip limit (i + 1)
  else some mem
termination_by limit - i

/-- `op[ext + 0] = ip[itx - 1]; op[ext + 1] = ip[itx - 1];` -/
def doubleLast (mem : Memory) (ip : Source) (ext itx : Nat) : Option Memory := do
  let last ← mem.load ip (itx - 1)
  let mem ← mem.store (ext + 0) last
  let last ← mem.load ip (itx - 1)
  mem.store (ext + 1) last

/-- The body of the loop `while (itx > 1)`. -/
def hashLevel (mem : Memory) (ip : Source) (ext itx : Nat) : Option Memory := do
  let odd := itx % 2
  let otx := (itx + 1) / 2
  -- `ext` is fixed before the first level, so the two copies lie behind the output of every level
  let mem ← if odd ≠ 0 then doubleLast mem ip ext itx else some mem
  let mem ← hashPairs mem ip (otx - odd) 0
  if odd ≠ 0 then bcHash32PairHash mem .op ext (otx - 1) else some mem

/-- The loop; `ip`, `itx` and the memory behind it. -/
def hashLevels (mem : Memory) (ip : Source) (ext itx : Nat) : Option (Source × Nat × Memory) :=
  if _several : itx > 1 then do
    let mem ← hashLevel mem ip ext itx
    hashLevels mem .op ext ((itx + 1) / 2)
  else some (ip, itx, mem)
termination_by itx

/-- `memset(op, 0, sizeof(bc_hash32_t) * count)` -/
def clearElems (mem : Memory) (count : Nat) : Option Memory :=
  if mem.op + count ≤ mem.buf.length then
    some { mem with
      buf :=
        mem.buf.take mem.op ++
          (List.replicate count (Vector.replicate 32 0) ++ mem.buf.drop (mem.op + count)) }
  else none

/-- The result and the two arrays after the call; `reply` is the allocator's
answer to `nu_dca_consume`. -/
def bcMerkleRoot (txids buf : List BcHash32) (reply : Option (Nat → BcHash32)) :
    Option (Int × List BcHash32 × List BcHash32) := do
  let itx := txids.length
  let otx := (itx + 1) / 2
  if itx < 1 then some (1, txids, buf)
  else do
    let consumed ← consumeElems buf (otx + 2) reply
    let mem ← clearElems ⟨txids, consumed, buf.length⟩ otx
    let ext := otx
    let (ip, itx, mem) ← hashLevels mem .txids ext itx
    -- only for a single id does `ip` still point to the ids here
    let mem ← if itx = 1 then (mem.load ip 0).bind (mem.store 0) else some mem
    some (0, mem.txids, mem.buf)

end NuLab.Merkle
