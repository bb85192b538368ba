import NuLab.Lib.BlockFold
import NuLab.Lib.Bytes
import Mathlib.Data.UInt

/-! # SHA-256 as FIPS 180-4 states it

The standard works on the whole padded message: pad, cut into 64-byte blocks,
fold the compression function from the initial value, write the words out
big-endian.  Nothing here follows the streaming code.
-/

namespace NuLab.Fips180

open NuLab.Bytes

/-! ## Functions on 32-bit words (section 4.1.2) -/

def rotr (n : Nat) (x : UInt32) : UInt32 := ⟨x.toBitVec.rotateRight n⟩

def shr (n : Nat) (x : UInt32) : UInt32 := ⟨x.toBitVec >>> n⟩

def ch (x y z : UInt32) : UInt32 := (x &&& y) ^^^ (~~~x &&& z)

def maj (x y z : UInt32) : UInt32 := (x &&& y) ^^^ (x &&& z) ^^^ (y &&& z)

def bigSigma0 (x : UInt32) : UInt32 := rotr 2 x ^^^ rotr 13 x ^^^ rotr 22 x

def bigSigma1 (x : UInt32) : UInt32 := rotr 6 x ^^^ rotr 11 x ^^^ rotr 25 x

def smallSigma0 (x : UInt32) : UInt32 := rotr 7 x ^^^ rotr 18 x ^^^ shr 3 x

def smallSigma1 (x : UInt32) : UInt32 := rotr 17 x ^^^ rotr 19 x ^^^ shr 10 x

/-! ## Constants (sections 4.2.2 and 5.3.3) -/

/-- `word` is the first thirty-two bits of the fractional part of the `degree`-th
root of `radicand`. -/
def RootFraction (degree radicand : Nat) (word : UInt32) : Prop :=
  ∃ whole < radicand, (whole * 2 ^ 32 + word.toNat) ^ degree ≤ radicand * 2 ^ (32 * degree) ∧
    radicand * 2 ^ (32 * degree) < (whole * 2 ^ 32 + word.toNat + 1) ^ degree

instance (degree radicand : Nat) (word : UInt32) : Decidable (RootFraction degree radicand word) :=
  inferInstanceAs (Decidable (∃ whole < radicand, _ ∧ _))

def primes : List Nat := [
  2, 3, 5, 7, 11, 13, 17, 19, 23, 29, 31, 37, 41, 43, 47, 53,
  59, 61, 67, 71, 73, 79, 83, 89, 97, 101, 103, 107, 109, 113, 127, 131,
  137, 139, 149, 151, 157, 163, 167, 173, 179, 181, 191, 193, 197, 199, 211, 223,
  227, 229, 233, 239, 241, 251, 257, 263, 269, 271, 277, 281, 283, 293, 307, 311]

def roundConstants : List UInt32 := [
  0x428a2f98, 0x71374491, 0xb5c0fbcf, 0xe9b5dba5, 0x3956c25b, 0x59f111f1, 0x923f82a4, 0xab1c5ed5,
  0xd807aa98, 0x12835b01, 0x243185be, 0x550c7dc3, 0x72be5d74, 0x80deb1fe, 0x9bdc06a7, 0xc19bf174,
  0xe49b69c1, 0xefbe4786, 0x0fc19dc6, 0x240ca1cc, 0x2de92c6f, 0x4a7484aa, 0x5cb0a9dc, 0x76f988da,
  0x983e5152, 0xa831c66d, 0xb00327c8, 0xbf597fc7, 0xc6e00bf3, 0xd5a79147, 0x06ca6351, 0x14292967,
  0x27b70a85, 0x2e1b2138, 0x4d2c6dfc, 0x53380d13, 0x650a7354, 0x766a0abb, 0x81c2c92e, 0x92722c85,
  0xa2bfe8a1, 0xa81a664b, 0xc24b8b70, 0xc76c51a3, 0xd192e819, 0xd6990624, 0xf40e3585, 0x106aa070,
  0x19a4c116, 0x1e376c08, 0x2748774c, 0x34b0bcb5, 0x391c0cb3, 0x4ed8aa4a, 0x5b9cca4f, 0x682e6ff3,
  0x748f82ee, 0x78a5636f, 0x84c87814, 0x8cc70208, 0x90befffa, 0xa4506ceb, 0xbef9a3f7, 0xc67178f2]

def initialWords : List UInt32 := [
  0x6a09e667, 0xbb67ae85, 0x3c6ef372, 0xa54ff53a, 0x510e527f, 0x9b05688c, 0x1f83d9ab, 0x5be0cd19]

def initialHash : Vector UInt32 8 := Vector.ofFn fun t => initialWords[t.val]!

theorem roundConstants_cubeRoots (t : Fin 64) :
    RootFraction 3 primes[t.val]! roundConstants[t.val]! := by
  revert t; decide +kernel

theorem initialHash_squareRoots (t : Fin 8) :
    RootFraction 2 primes[t.val]! (initialHash.get t) := by
  revert t; decide +kernel

/-! ## Compression (section 6.2.2) -/

/-- The words `W_0 .. W_15` of a block. -/
def blockWords (block : List UInt8) : List UInt32 :=
  (List.range 16).map fun t => UInt32.ofNat (ofBE ((block.drop (4 * t)).take 4))

/-- Adds `W_t` to `W_0 .. W_(t-1)`. -/
def extendSchedule (words : List UInt32) : List UInt32 :=
  let t := words.length
  words ++ [smallSigma1 words[t - 2]! + words[t - 7]! + smallSigma0 words[t - 15]! + words[t - 16]!]

def schedule (block : List UInt8) : List UInt32 := extendSchedule^[48] (blockWords block)

structure Working where
  a : UInt32
  b : UInt32
  c : UInt32
  d : UInt32
  e : UInt32
  f : UInt32
  g : UInt32
  h : UInt32

def round (constant word : UInt32) (v : Working) : Working :=
  let t1 := v.h + bigSigma1 v.e + ch v.e v.f v.g + constant + word
  let t2 := bigSigma0 v.a + maj v.a v.b v.c
  ⟨t1 + t2, v.a, v.b, v.c, v.d + t1, v.e, v.f, v.g⟩

@[irreducible] def compress (hash : Vector UInt32 8) (block : List UInt8) : Vector UInt32 8 :=
  let words := schedule block
  let v := (List.range 64).foldl (fun v t => round roundConstants[t]! words[t]! v)
    ⟨hash.get 0, hash.get 1, hash.get 2, hash.get 3, hash.get 4, hash.get 5, hash.get 6, hash.get 7⟩
  #v[v.a + hash.get 0, v.b + hash.get 1, v.c + hash.get 2, v.d + hash.get 3,
    v.e + hash.get 4, v.f + hash.get 5, v.g + hash.get 6, v.h + hash.get 7]

/-! ## Padding and digest (sections 5.1.1 and 6.2) -/

/-- The zero bytes that bring a message and its `0x80` to 56 modulo 64. -/
def zeroBytes (length : Nat) : Nat := (119 - length % 64) % 64

def padding (length : Nat) : List UInt8 :=
  0x80 :: (List.replicate (zeroBytes length) 0 ++ toBE 8 (8 * length))

def pad (message : List UInt8) : List UInt8 := message ++ padding message.length

def writeWords (hash : Vector UInt32 8) : List UInt8 :=
  hash.toList.flatMap fun word => toBE 4 word.toNat

def sha256 (message : List UInt8) : List UInt8 :=
  writeWords ((BlockFold.blocks 64 (pad message)).foldl compress initialHash)

theorem pad_length (message : List UInt8) :
    (pad message).length = 64 * ((message.length + 72) / 64) := by
  simp only [pad, padding, zeroBytes, List.length_append, List.length_cons,
    List.length_replicate, toBE_length]
  omega

theorem writeWords_length (hash : Vector UInt32 8) : (writeWords hash).length = 32 := by
  simp [writeWords, List.length_flatMap]

end NuLab.Fips180
