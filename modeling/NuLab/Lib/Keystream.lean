import Mathlib.Data.List.Basic
import Mathlib.Data.UInt

/-! # Exclusive or with a stream

A byte sequence is combined with the bytes of a stream by position, so a part of the
result is the same part of the sequence combined with the stream from there on.
-/

namespace NuLab.Keystream

/-- The bytes combined with the stream from position `start` on. -/
def xorFrom (stream : Nat → UInt8) (start : Nat) (bytes : List UInt8) : List UInt8 :=
  bytes.mapIdx fun i byte => byte ^^^ stream (start + i)

variable (stream : Nat → UInt8) (start : Nat) (bytes : List UInt8)

@[simp] theorem xorFrom_length : (xorFrom stream start bytes).length = bytes.length :=
  List.length_mapIdx

@[simp] theorem xorFrom_getElem? (i : Nat) :
    (xorFrom stream start bytes)[i]? = bytes[i]?.map fun byte => byte ^^^ stream (start + i) := by
  simp [xorFrom]

theorem xorFrom_getElem {i : Nat} (left : i < (xorFrom stream start bytes).length)
    (inside : i < bytes.length) :
    (xorFrom stream start bytes)[i] = bytes[i] ^^^ stream (start + i) := by
  simp [xorFrom]

theorem xorFrom_drop (count : Nat) :
    (xorFrom stream start bytes).drop count =
      xorFrom stream (start + count) (bytes.drop count) := by
  apply List.ext_getElem?
  intro i
  simp [Nat.add_assoc]

theorem xorFrom_take (count : Nat) :
    (xorFrom stream start bytes).take count = xorFrom stream start (bytes.take count) := by
  apply List.ext_getElem?
  intro i
  by_cases inside : i < count
  · simp [inside]
  · simp [inside]

theorem xorFrom_twice : xorFrom stream start (xorFrom stream start bytes) = bytes := by
  apply List.ext_getElem
  · simp
  · intro i left right
    have middle : i < (xorFrom stream start bytes).length := by simpa using right
    rw [xorFrom_getElem stream start _ left middle, xorFrom_getElem stream start bytes middle right,
      UInt8.xor_assoc, UInt8.xor_self, UInt8.xor_zero]

/-- Only the values of the stream matter. -/
theorem xorFrom_congr {stream other : Nat → UInt8} {start start' : Nat}
    (same : ∀ i, stream (start + i) = other (start' + i)) :
    xorFrom stream start bytes = xorFrom other start' bytes := by
  unfold xorFrom
  congr 1
  funext i byte
  rw [same i]

end NuLab.Keystream
