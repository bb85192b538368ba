import NuLab.Json.Code
import NuLab.Types

/-! # Hex digits: `bc_hex.h` and `bc_hash32_from_cspan` -/

namespace NuLab.Hex

open NuLab.Json

/-- Every other character counts as 0. -/
def bcHexCharMap (char : UInt8) : UInt8 :=
  if 48 ≤ char ∧ char ≤ 57 then char - 48
  else if 97 ≤ char ∧ char ≤ 102 then char - 87
  else if 65 ≤ char ∧ char ≤ 70 then char - 55
  else 0

def bcHexCharToByte (hex0 hex1 : UInt8) : UInt8 := bcHexCharMap hex1 ||| (bcHexCharMap hex0 <<< 4)

def BcHashStringSize : Nat := 64

/-- The hash that 64 characters stand for: the last two of them are its first byte. -/
def hash32OfChars (chars : List UInt8) : BcHash32 :=
  Vector.ofFn fun k =>
    let i := 31 - k.val
    bcHexCharToByte (chars.getD (i * 2) 0) (chars.getD (i * 2 + 1) 0)

/-- `none`: the assertion fails. -/
def bcHash32FromCspan (memory : List UInt8) (s : NuCspan) : Option BcHash32 :=
  if s.fin - s.beg ≥ BcHashStringSize then some (hash32OfChars (memory.drop s.beg)) else none

end NuLab.Hex
