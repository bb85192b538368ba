import NuLab.Dca.Code

/-! # Loading files: `bc_utils.c`

Both loaders read to the beginning of the array and then lengthen it.  `fread` delivers
the whole file, which is empty or not; `errno` is what it holds when the code looks at
it, and a read of no bytes does not set it.  `none` as a result means that the code
writes outside of its block, or through NULL.
-/

namespace NuLab.Load

open NuLab.Dca

def ENOMEM : Int := 12

/-- `ftell` returns a `long`. -/
structure FileContent where
  bytes : List UInt8
  size : bytes.length < 2 ^ 63

/-! ## `nu_buffer_t` and `nu_string_t` -/

/-- `offsetof(elems)`, for elements of one byte. -/
def bytesOffset : UInt64 := 16

def nuBufferReserve (buf : Option Block) (nelems : UInt64) (reply : Option Grant) :
    Option Outcome :=
  nuMboxDcaReserve buf bytesOffset 1 nelems reply

def nuBufferConsume (buf : Option Block) (nelems : UInt64) (reply : Option Grant) :
    Option Outcome :=
  nuMboxDcaConsume buf bytesOffset 1 nelems reply

def nuBufferBegin (buf : Option Block) : Option Nat := nuDcaData buf bytesOffset

def nuStringReserve (buf : Option Block) (nelems : UInt64) (reply : Option Grant) :
    Option Outcome :=
  nuMboxDcaReserve buf bytesOffset 1 nelems reply

def nuStringConsume (buf : Option Block) (nelems : UInt64) (reply : Option Grant) :
    Option Outcome :=
  nuMboxDcaConsume buf bytesOffset 1 nelems reply

def nuStringBegin (buf : Option Block) : Option Nat := nuDcaData buf bytesOffset

/-- Writing to an address of the block. -/
def storeBytes (buf : Option Block) (addr : Option Nat) (bytes : List UInt8) : Option Block :=
  match buf, addr with
  | some p, some addr =>
    let offset := addr - p.addr
    if p.addr ≤ addr ∧ offset + bytes.length ≤ p.bytes.length then
      some { p with
        bytes := p.bytes.take offset ++ (bytes ++ p.bytes.drop (offset + bytes.length)) }
    else none
  | _, _ => none

/-! ## The loaders -/

/-- What a loader returns and leaves. -/
structure Loaded where
  ec : Int
  buf : Option Block
deriving DecidableEq

/-- `none` as a file cannot be opened; the replies answer `nu_buffer_reserve`
and `nu_buffer_consume`. -/
def btcpLoadFile (errno : Int) (file : Option FileContent) (buf : Option Block)
    (reserveReply consumeReply : Option Grant) : Option Loaded :=
  match file with
  | none => some ⟨errno, buf⟩
  | some file => do
    let reserved ← nuBufferReserve buf (UInt64.ofNat file.bytes.length) reserveReply
    if reserved.ret.isSome then do
      let read ← storeBytes reserved.pp (nuBufferBegin reserved.pp) file.bytes
      let nb := file.bytes.length
      if nb = 0 then some ⟨errno, some read⟩
      else do
        -- the result is not looked at
        let consumed ← nuBufferConsume (some read) (UInt64.ofNat nb) consumeReply
        some ⟨0, consumed.pp⟩
    else some ⟨ENOMEM, reserved.pp⟩

def btcpLoadTextFile (errno : Int) (file : Option FileContent) (buf : Option Block)
    (reserveReply consumeReply : Option Grant) : Option Loaded :=
  match file with
  | none => some ⟨errno, buf⟩
  | some file => do
    let reserved ← nuStringReserve buf (UInt64.ofNat (file.bytes.length + 1)) reserveReply
    if reserved.ret.isSome then do
      let read ← storeBytes reserved.pp (nuStringBegin reserved.pp) file.bytes
      let nb := file.bytes.length
      if nb = 0 then some ⟨errno, some read⟩
      else do
        let consumed ← nuStringConsume (some read) (UInt64.ofNat nb) consumeReply
        let terminated ← storeBytes consumed.pp (consumed.ret.map (· + nb)) [0]
        some ⟨0, some terminated⟩
    else some ⟨ENOMEM, reserved.pp⟩

end NuLab.Load
