import NuLab.Types
import NuLab.Dca.Elements
import NuLab.Sha256.Code

/-! # The transaction encoders of `bc_utils.h`

An encoder works on a buffer of bytes.  The allocator answers every
`nu_buffer_consume` with NULL or with new bytes of unknown content; pointers into
the buffer are positions.  `none` is a write through NULL, a read behind the end of
an array or a failed `nu_assert`, whose handler aborts; those of `nu_expect` and
`nu_ensure` return, so that a refused request changes nothing.  The target is
little-endian and stores integers at any address.
-/

namespace NuLab.Transaction

open NuLab.Bytes NuLab.Dca NuLab.Sha256

structure Buffer where
  bytes : List UInt8
  calls : Nat
deriving DecidableEq

/-- The answer to a `nu_buffer_consume`, given how many came before. -/
abbrev Allocator := Nat → Option (Nat → UInt8)

abbrev Encoder (α : Type) := ReaderT Allocator (StateT Buffer Option) α

def nuBufferConsume (num : Nat) : Encoder (Option Nat) := fun mem buf =>
  match consumeElems buf.bytes num (mem buf.calls) with
  | none => some (none, { buf with calls := buf.calls + 1 })
  | some bytes => some (some buf.bytes.length, ⟨bytes, buf.calls + 1⟩)

/-- Room for `num` more bytes, or NULL; the content stays as it is. -/
def nuBufferExtend (_num : Nat) : Encoder Bool := fun mem buf =>
  some ((mem buf.calls).isSome, { buf with calls := buf.calls + 1 })

/-- Writes `value` at `out + offset`. -/
def store (out : Option Nat) (offset : Nat) (value : List UInt8) : Encoder Unit := fun _ buf =>
  match out with
  | none => none
  | some position =>
    let start := position + offset
    if start + value.length ≤ buf.bytes.length then
      some ((), { buf with
        bytes := buf.bytes.take start ++ (value ++ buf.bytes.drop (start + value.length)) })
    else none

/-- `dat[0]` to `dat[num - 1]` -/
def readBytes (dat : List UInt8) (num : Nat) : Encoder (List UInt8) := fun _ buf =>
  if num ≤ dat.length then some (dat.take num, buf) else none

/-- The run ends if the assertion fails. -/
def nuAssert (x : Prop) [Decidable x] : Encoder Unit :=
  fun _ buf => if x then some ((), buf) else none

/-- `for (size_t i = 0; i < count; ++i)` with a body that uses `vec[i]`. -/
def forEach {α : Type} (body : α → Encoder Unit) : Nat → List α → Encoder Unit
  | 0, _ => pure ()
  | _ + 1, [] => fun _ _ => none
  | count + 1, a :: vec => do
    body a
    forEach body count vec

/-! ## Integers and bytes -/

/-- A marker byte with an integer of `width` bytes behind it. -/
def appendMarked (marker : UInt8) (width : Nat) (val : UInt64) : Encoder Int := do
  let out ← nuBufferConsume (1 + width)
  store out 0 [marker]
  store out 1 (toLE width val.toNat)
  return 0

def bcAppendVarint (val : UInt64) : Encoder Int :=
  if val < 0xFD then do
    let out ← nuBufferConsume 1
    store out 0 [val.toUInt8]
    return 0
  -- the largest value of a width is already written in the next one
  else if val < 0xFFFF then appendMarked 0xFD 2 val
  else if val < 0xFFFFFFFF then appendMarked 0xFE 4 val
  else appendMarked 0xFF 8 val

/-- The integers of fixed width: `sizeof(val)` bytes, written through the returned pointer. -/
def appendInteger (width val : Nat) : Encoder Int := do
  let out ← nuBufferConsume width
  store out 0 (toLE width val)
  return 0

def bcAppendU32 (val : UInt32) : Encoder Int := appendInteger 4 val.toNat

def bcAppendU64 (val : UInt64) : Encoder Int := appendInteger 8 val.toNat

def bcAppendU16 (val : UInt16) : Encoder Int := appendInteger 2 val.toNat

def bcAppendI16 (val : Int16) : Encoder Int := appendInteger 2 val.toUInt16.toNat

def bcAppendI32 (val : Int32) : Encoder Int := appendInteger 4 val.toUInt32.toNat

def bcAppendI64 (val : Int64) : Encoder Int := appendInteger 8 val.toUInt64.toNat

def bcAppendBytes (dat : List UInt8) (num : UInt64) : Encoder Int := do
  let out ← nuBufferConsume num.toNat
  if out.isSome then
    let value ← readBytes dat num.toNat
    store out 0 value
  return if out.isSome then 1 else 0

def bcAppendHash32 (val : BcHash32) : Encoder Int := do
  let out ← nuBufferConsume 32
  if out.isSome then
    store out 0 val.toList
  return if out.isSome then 1 else 0

def bcAppendBlockHeader (hdr : BcBlockHeader) : Encoder Int := do
  let out ← nuBufferConsume 80
  if out.isSome then
    store out 0 hdr.bytes
  return if out.isSome then 1 else 0

/-! ## Transactions -/

def bcAppendTxInput (txi : BcTxInput) : Encoder Int := do
  let _ ← bcAppendHash32 txi.txid
  let _ ← bcAppendU32 txi.vout
  let _ ← bcAppendVarint txi.scriptSigSize
  if txi.scriptSigSize ≠ 0 then
    nuAssert (txi.scriptSigSize.toNat < SIZE_MAX)
    let _ ← bcAppendBytes txi.scriptSig txi.scriptSigSize
  let _ ← bcAppendU32 txi.sequence
  return 0

def bcAppendTxOutput (txo : BcTxOutput) : Encoder Int := do
  let _ ← bcAppendU64 txo.amount
  let _ ← bcAppendVarint txo.scriptPubKeySize
  if txo.scriptPubKeySize ≠ 0 then
    nuAssert (txo.scriptPubKeySize.toNat < SIZE_MAX)
    let _ ← bcAppendBytes txo.scriptPubKey txo.scriptPubKeySize
  return 0

def bcAppendTxInputsSection (tx : BcTxInfo) : Encoder Int := do
  nuAssert (tx.inCount.toNat < SIZE_MAX)
  let _ ← bcAppendVarint tx.inCount
  forEach (fun txi => do let _ ← bcAppendTxInput txi) tx.inCount.toNat tx.inVec
  return 0

def bcAppendTxOutputsSection (tx : BcTxInfo) : Encoder Int := do
  nuAssert (tx.outCount.toNat < SIZE_MAX)
  let _ ← bcAppendVarint tx.outCount
  forEach (fun txo => do let _ ← bcAppendTxOutput txo) tx.outCount.toNat tx.outVec
  return 0

/-- The body of the inner loop of `bc_append_tx_witnesses_section`. -/
def appendWitnessField (f : BcWitnessField) : Encoder Unit := do
  nuAssert (f.size.toNat < SIZE_MAX)
  nuAssert (f.data ≠ none)
  let _ ← bcAppendVarint f.size
  let _ ← bcAppendBytes f.bytes f.size

/-- The body of the outer loop; the inner one counts up to `in_count`. -/
def appendWitness (inCount : UInt64) (w : BcWitness) : Encoder Unit := do
  nuAssert (w.stackItems.toNat < SIZE_MAX)
  let _ ← bcAppendVarint w.stackItems
  if w.stackItems ≠ 0 then
    nuAssert (w.items ≠ none)
    forEach appendWitnessField inCount.toNat w.entries

def bcAppendTxWitnessesSection (tx : BcTxInfo) : Encoder Int := do
  nuAssert (tx.inCount.toNat < SIZE_MAX)
  -- one count for all witnesses, in front of those of each stack
  let _ ← bcAppendVarint tx.inCount
  forEach (appendWitness tx.inCount) tx.inCount.toNat tx.witnessVec
  return 0

def bcAppendTxLegacy (tx : BcTxInfo) : Encoder Int := do
  let _ ← bcAppendU32 tx.version
  let _ ← bcAppendTxInputsSection tx
  let _ ← bcAppendTxOutputsSection tx
  let _ ← bcAppendU32 tx.lockTime
  return 0

def bcAppendTxSegwit (tx : BcTxInfo) : Encoder Int := do
  let _ ← bcAppendU32 tx.version
  let _ ← bcAppendBytes [tx.marker] 1
  let _ ← bcAppendBytes [tx.flags] 1
  let _ ← bcAppendTxInputsSection tx
  let _ ← bcAppendTxOutputsSection tx
  let _ ← bcAppendTxWitnessesSection tx
  let _ ← bcAppendU32 tx.lockTime
  return 0

def bcAppendTransaction (tx : BcTxInfo) : Encoder Int :=
  if tx.flags ≠ 0 then bcAppendTxSegwit tx else bcAppendTxLegacy tx

/-! ## Transaction ids -/

/-- The first result of `bc_append_tx_legacy` and what is passed to `hash256_digest`: the bytes in
the buffer and their number, cut to 32 bits. -/
def txidMessage (mem : Allocator) (tx : BcTxInfo) : Option (Int × List UInt8 × UInt32) := do
  let (ec, buf) ← bcAppendTxLegacy tx mem ⟨[], 0⟩
  some (ec, buf.bytes, UInt32.ofNat buf.bytes.length)

def bcTxTxid (mem : Allocator) (tx : BcTxInfo) (hash : BcHash32) : Option (Int × BcHash32) := do
  let (ec, message, size) ← txidMessage mem tx
  if ec = 0 then hash256Digest message size hash else some (ec, hash)

end NuLab.Transaction
