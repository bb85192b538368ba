import Mathlib.Data.UInt
import NuLab.Lib.Bytes

/-! # The dynamic array of `dca.h` and `dca.c`

The build has `stdckdint.h`, and the handlers of failed `nu_expect` and
`nu_ensure` checks return, as the test suite installs them.  The header with
capacity and length is the first 16 bytes of the block itself, so reallocating
the block moves it.  `none` as a result means that the code reads or writes
behind the end of its block; NULL is `none` as an address.  Callers pass
`off >= sizeof(nu_dca_base_t)`, which the code asserts.
-/

namespace NuLab.Dca

open NuLab.Bytes

def SIZE_MAX : Nat := 2 ^ 64 - 1

/-! ## Blocks and the allocator -/

/-- `nu_dca_base_t` -/
structure DcaBase where
  bcap : UInt64
  blen : UInt64
deriving DecidableEq

def sizeofBase : Nat := 16

def alignofBase : Nat := 8

/-- A live block of the allocator. -/
structure Block where
  addr : Nat
  bytes : List UInt8
deriving DecidableEq

/-- An address that the allocator gives out and what the new bytes behind it hold. -/
structure Grant where
  addr : Nat
  fresh : Nat → UInt8

/-- The calls the array makes to its `nu_memory_t`. -/
inductive MemCall where
  | consume (ptr : Option Nat) (nb : UInt64) (a : Nat)
  | release (ptr : Nat) (nb : UInt64) (a : Nat)
deriving DecidableEq

/-- `ops->consume`: NULL, or a block of `nb` bytes that starts like the old one. -/
def memConsume (old : List UInt8) (nb : UInt64) (reply : Option Grant) : Option Block :=
  reply.map fun grant =>
    ⟨grant.addr, old.take nb.toNat ++ (List.range (nb.toNat - old.length)).map fun k =>
      grant.fresh (old.length + k)⟩

def baseBytes (base : DcaBase) : List UInt8 := toLE 8 base.bcap.toNat ++ toLE 8 base.blen.toNat

/-- `*p` read as `nu_dca_base_t`. -/
def Block.base (p : Block) : Option DcaBase :=
  if sizeofBase ≤ p.bytes.length then
    some ⟨UInt64.ofNat (ofLE (p.bytes.take 8)), UInt64.ofNat (ofLE ((p.bytes.drop 8).take 8))⟩
  else none

/-- `*p = base` -/
def Block.setBase (p : Block) (base : DcaBase) : Option Block :=
  if sizeofBase ≤ p.bytes.length
    then some { p with bytes := baseBytes base ++ p.bytes.drop sizeofBase } else none

/-! ## `dca.c` -/

/-- What a call returns, leaves in `*pp` and asked of the allocator. -/
structure Outcome where
  ret : Option Nat
  pp : Option Block
  calls : List MemCall
deriving DecidableEq

def nuDcaReleaseAll (pp : Option Block) (off : UInt64) : Option Outcome :=
  match pp with
  | none => some ⟨none, none, []⟩
  | some p => do
    let base ← p.base
    some ⟨none, none, [.release p.addr (off + base.bcap) alignofBase]⟩

/-- The end of `nu_dca_reserve_bytes`, behind `nu_ensure(p != NULL)`. -/
def recordCapacity (p : Block) (nb : UInt64) : Option Block := do
  let base ← p.base
  p.setBase { bcap := nb, blen := if base.blen > nb then nb else base.blen }

def nuDcaReserveBytes (pp : Option Block) (off nb : UInt64) (reply : Option Grant) :
    Option Outcome :=
  -- no check that this sum is a `size_t`
  let size := off + nb
  match pp with
  | none =>
    let calls := [.consume none size alignofBase]
    match memConsume [] size reply with
    | none => some ⟨none, none, calls⟩
    | some p => do
      let p ← p.setBase ⟨0, 0⟩
      let p ← recordCapacity p nb
      some ⟨some (p.addr + off.toNat), some p, calls⟩
  | some old => do
    let base ← old.base
    -- a failed reallocation returns before `*pp` is assigned
    if base.bcap < nb then
      let calls := [.consume (some old.addr) size alignofBase]
      match memConsume old.bytes size reply with
      | none => some ⟨none, some old, calls⟩
      | some p => do
        let p ← recordCapacity p nb
        some ⟨some (p.addr + off.toNat), some p, calls⟩
    else some ⟨some (old.addr + off.toNat), some old, []⟩

/-- `*pp ? **pp : (nu_dca_base_t){0}`, as far as `nu_dca_consume_bytes` reads it. -/
def baseOrZero (pp : Option Block) : Option DcaBase :=
  match pp with
  | none => some ⟨0, 0⟩
  | some p => p.base

/-- The end of `nu_dca_consume_bytes`, once `data` is `out.ret`. -/
def recordLength (out : Outcome) (len nb : UInt64) : Option Outcome :=
  match out.ret, out.pp with
  | none, _ => some out
  | some _, none => none
  | some data, some p => do
    let base ← p.base
    let p ← p.setBase { base with blen := len + nb }
    some ⟨some (data + len.toNat), some p, out.calls⟩

def nuDcaConsumeBytes (pp : Option Block) (off nb : UInt64) (reply : Option Grant) :
    Option Outcome := do
  let base ← baseOrZero pp
  let reqCap := base.blen + nb
  -- `nu_ensure(req_cap >= len)`
  if ¬ reqCap ≥ base.blen then some ⟨none, pp, []⟩
  else do
    let out ←
      match pp with
      | none => nuDcaReserveBytes pp off reqCap reply
      | some p =>
        if base.bcap < reqCap then nuDcaReserveBytes pp off reqCap reply
        else some ⟨some (p.addr + off.toNat), pp, []⟩
    recordLength out base.blen nb

/-! ## `dca.h` -/

def ckdAdd (a b : UInt64) : Option UInt64 :=
  if a.toNat + b.toNat ≤ SIZE_MAX then some (a + b) else none

def ckdMul (a b : UInt64) : Option UInt64 :=
  if a.toNat * b.toNat ≤ SIZE_MAX then some (a * b) else none

def nuMboxDcaRelease (pp : Option Block) (off : UInt64) : Option Outcome := nuDcaReleaseAll pp off

def nuMboxDcaReserve (pp : Option Block) (off es nelems : UInt64) (reply : Option Grant) :
    Option Outcome :=
  match ckdMul nelems es with
  | none => some ⟨none, pp, []⟩
  | some nbytes => nuDcaReserveBytes pp off nbytes reply

def nuMboxDcaExtend (pp : Option Block) (off es nelems : UInt64) (reply : Option Grant) :
    Option Outcome :=
  if ¬ es > 0 then some ⟨none, pp, []⟩
  else do
    let base ← baseOrZero pp
    match ckdAdd (base.blen / es) nelems with
    | none => some ⟨none, pp, []⟩
    | some newlen => nuMboxDcaReserve pp off es newlen reply

def nuMboxDcaConsume (pp : Option Block) (off es nelems : UInt64) (reply : Option Grant) :
    Option Outcome :=
  match ckdMul nelems es with
  | none => some ⟨none, pp, []⟩
  | some nbytes => nuDcaConsumeBytes pp off nbytes reply

def nuMboxDcaClean (pp : Option Block) : Option Outcome :=
  match pp with
  | none => some ⟨none, none, []⟩
  | some p => do
    let base ← p.base
    let p ← p.setBase { base with blen := 0 }
    some ⟨none, some p, []⟩

def nuDcaCapacityInBytes (pp : Option Block) : UInt64 :=
  ((pp.bind Block.base).map DcaBase.bcap).getD 0

def nuDcaSizeInBytes (pp : Option Block) : UInt64 := ((pp.bind Block.base).map DcaBase.blen).getD 0

def nuDcaCapacity (pp : Option Block) (es : UInt64) : UInt64 := nuDcaCapacityInBytes pp / es

def nuDcaSize (pp : Option Block) (es : UInt64) : UInt64 := nuDcaSizeInBytes pp / es

def nuDcaData (pp : Option Block) (off : UInt64) : Option Nat := pp.map fun p => p.addr + off.toNat

/-! ## Sequences of calls -/

inductive DcaOp where
  | reserve (nelems : UInt64)
  | extend (nelems : UInt64)
  | consume (nelems : UInt64)
  | clean
  | release
deriving DecidableEq

/-- One call with the allocator's answer, should the call ask it. -/
def dcaStep (off es : UInt64) (pp : Option Block) : DcaOp × Option Grant → Option Outcome
  | (.reserve nelems, reply) => nuMboxDcaReserve pp off es nelems reply
  | (.extend nelems, reply) => nuMboxDcaExtend pp off es nelems reply
  | (.consume nelems, reply) => nuMboxDcaConsume pp off es nelems reply
  | (.clean, _) => nuMboxDcaClean pp
  | (.release, _) => nuMboxDcaRelease pp off

end NuLab.Dca
