import Mathlib.Data.UInt
import NuLab.Lib.Bytes

/-! # The records of `bc_types.h`

A pointer with a count next to it is a list; the count stays a field of its own,
as in the source, and nothing here says that it is the length of the list.  Where the
source compares the pointer with NULL, the list is optional.
-/

namespace NuLab

open Bytes

/-- `bc_hash32_t` -/
abbrev BcHash32 := Vector UInt8 32

/-- `bc_block_header_t` -/
structure BcBlockHeader where
  version : UInt32
  hashPrevBlock : BcHash32
  hashMerkleRoot : BcHash32
  timestamp : UInt32
  bits : UInt32
  nonce : UInt32
deriving DecidableEq

/-- The 80 bytes of a header in memory; the target is little-endian. -/
def BcBlockHeader.bytes (header : BcBlockHeader) : List UInt8 :=
  toLE 4 header.version.toNat ++ (header.hashPrevBlock.toList ++ (header.hashMerkleRoot.toList ++
    (toLE 4 header.timestamp.toNat ++ (toLE 4 header.bits.toNat ++ toLE 4 header.nonce.toNat))))

theorem BcBlockHeader.bytes_length (header : BcBlockHeader) : header.bytes.length = 80 := by
  simp [BcBlockHeader.bytes]

/-- The header whose 80 bytes in memory are `image`. -/
def BcBlockHeader.ofImage (image : List UInt8) : BcBlockHeader where
  version := UInt32.ofNat (ofLE (image.take 4))
  hashPrevBlock := Vector.ofFn fun i => image.getD (4 + i) 0
  hashMerkleRoot := Vector.ofFn fun i => image.getD (36 + i) 0
  timestamp := UInt32.ofNat (ofLE ((image.drop 68).take 4))
  bits := UInt32.ofNat (ofLE ((image.drop 72).take 4))
  nonce := UInt32.ofNat (ofLE ((image.drop 76).take 4))

/-- A field of an image, by where it starts. -/
theorem vector_of_bytes {n : Nat} {image : List UInt8} {vector : Vector UInt8 n} (start : Nat)
    (field : (image.drop start).take n = vector.toList) :
    Vector.ofFn (fun i : Fin n => image.getD (start + i) 0) = vector := by
  apply Vector.toList_inj.mp
  apply List.ext_getElem
  · simp
  · intro i bound inside
    have long : i < ((image.drop start).take n).length := by rw [field]; exact inside
    have within : start + i < image.length := by
      rw [List.length_take, List.length_drop] at long
      omega
    simp [← field, within]

theorem number_of_bytes {bytes : List UInt8} {word : UInt32} (field : bytes = toLE 4 word.toNat) :
    UInt32.ofNat (ofLE bytes) = word := by
  rw [field, ofLE_toLE_of_lt word.toNat_lt, UInt32.ofNat_toNat]

theorem BcBlockHeader.ofImage_bytes (header : BcBlockHeader) :
    BcBlockHeader.ofImage header.bytes = header := by
  have version : header.bytes.take 4 = toLE 4 header.version.toNat := by simp [bytes]
  have hashPrevBlock : (header.bytes.drop 4).take 32 = header.hashPrevBlock.toList := by
    simp [bytes]
  have hashMerkleRoot : (header.bytes.drop 36).take 32 = header.hashMerkleRoot.toList := by
    simp [bytes, List.drop_append, List.drop_eq_nil_of_le]
  have timestamp : (header.bytes.drop 68).take 4 = toLE 4 header.timestamp.toNat := by
    simp [bytes, List.drop_append, List.drop_eq_nil_of_le]
  have bits : (header.bytes.drop 72).take 4 = toLE 4 header.bits.toNat := by
    simp [bytes, List.drop_append, List.drop_eq_nil_of_le]
  have nonce : (header.bytes.drop 76).take 4 = toLE 4 header.nonce.toNat := by
    simp [bytes, List.drop_append, List.drop_eq_nil_of_le]
  rw [ofImage, number_of_bytes version, vector_of_bytes 4 hashPrevBlock,
    vector_of_bytes 36 hashMerkleRoot, number_of_bytes timestamp, number_of_bytes bits,
    number_of_bytes nonce]

/-- `bc_tx_input_t` -/
structure BcTxInput where
  txid : BcHash32
  vout : UInt32
  scriptSigSize : UInt64
  scriptSig : List UInt8
  sequence : UInt32
deriving DecidableEq

/-- `bc_tx_output_t` -/
structure BcTxOutput where
  amount : UInt64
  scriptPubKeySize : UInt64
  scriptPubKey : List UInt8
deriving DecidableEq

/-- `bc_witness_field_t` -/
structure BcWitnessField where
  size : UInt64
  data : Option (List UInt8)
deriving DecidableEq

/-- What can be read through `data`: nothing, if it is NULL. -/
def BcWitnessField.bytes (f : BcWitnessField) : List UInt8 := f.data.getD []

/-- `bc_witness_t` -/
structure BcWitness where
  stackItems : UInt64
  items : Option (List BcWitnessField)
deriving DecidableEq

def BcWitness.entries (w : BcWitness) : List BcWitnessField := w.items.getD []

/-- `bc_tx_info_t` -/
structure BcTxInfo where
  version : UInt32
  inCount : UInt64
  inVec : List BcTxInput
  outCount : UInt64
  outVec : List BcTxOutput
  lockTime : UInt32
  marker : UInt8
  flags : UInt8
  witnessVec : List BcWitness
deriving DecidableEq

end NuLab
