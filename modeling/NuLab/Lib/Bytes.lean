import Mathlib.Data.List.Basic
import Mathlib.Data.Nat.Digits.Lemmas
import Mathlib.Tactic.Ring

/-! # Fixed-width byte encodings of natural numbers

`toLE w v` is the little-endian encoding of `v` in `w` bytes (the rest of `v` is
cut off), `ofLE` the number that bytes write.  The big-endian forms are the
reversed lists.
-/

namespace NuLab.Bytes

def toLE : Nat → Nat → List UInt8
  | 0, _ => []
  | width + 1, value => UInt8.ofNat value :: toLE width (value / 256)

def ofLE : List UInt8 → Nat
  | [] => 0
  | byte :: bytes => byte.toNat + 256 * ofLE bytes

def toBE (width value : Nat) : List UInt8 := (toLE width value).reverse

def ofBE (bytes : List UInt8) : Nat := ofLE bytes.reverse

@[simp] theorem toLE_length (width value : Nat) : (toLE width value).length = width := by
  induction width generalizing value with
  | zero => rfl
  | succ width inductionHypothesis => simp [toLE, inductionHypothesis]

@[simp] theorem toBE_length (width value : Nat) : (toBE width value).length = width := by
  simp [toBE]

theorem ofLE_toLE (width value : Nat) : ofLE (toLE width value) = value % 256 ^ width := by
  induction width generalizing value with
  | zero => simp [toLE, ofLE, Nat.mod_one]
  | succ width inductionHypothesis =>
    have split : value % (256 * 256 ^ width) = value % 256 + 256 * (value / 256 % 256 ^ width) :=
      Nat.mod_mul
    simp only [toLE, ofLE, inductionHypothesis, UInt8.toNat_ofNat', Nat.pow_succ', split]

theorem ofLE_toLE_of_lt {width value : Nat} (bound : value < 256 ^ width) :
    ofLE (toLE width value) = value := by
  rw [ofLE_toLE, Nat.mod_eq_of_lt bound]

theorem ofLE_lt (bytes : List UInt8) : ofLE bytes < 256 ^ bytes.length := by
  induction bytes with
  | nil => simp [ofLE]
  | cons byte bytes inductionHypothesis =>
    have small := byte.toNat_lt
    simp only [ofLE, List.length_cons, Nat.pow_succ]
    omega

theorem toLE_ofLE (bytes : List UInt8) : toLE bytes.length (ofLE bytes) = bytes := by
  induction bytes with
  | nil => rfl
  | cons byte bytes inductionHypothesis =>
    have small := byte.toNat_lt
    have tail : (byte.toNat + 256 * ofLE bytes) / 256 = ofLE bytes := by omega
    have head : UInt8.ofNat (byte.toNat + 256 * ofLE bytes) = byte := by
      apply UInt8.toNat_inj.mp
      rw [UInt8.toNat_ofNat']
      omega
    simp only [List.length_cons, toLE, ofLE, tail, head, inductionHypothesis]

theorem ofLE_append (low high : List UInt8) :
    ofLE (low ++ high) = ofLE low + 256 ^ low.length * ofLE high := by
  induction low with
  | nil => simp [ofLE]
  | cons byte low inductionHypothesis =>
    simp only [List.cons_append, ofLE, inductionHypothesis, List.length_cons, Nat.pow_succ]
    ring

theorem ofBE_cons (byte : UInt8) (bytes : List UInt8) :
    ofBE (byte :: bytes) = ofBE bytes + 256 ^ bytes.length * byte.toNat := by
  simp [ofBE, ofLE_append, ofLE]

theorem ofBE_lt (bytes : List UInt8) : ofBE bytes < 256 ^ bytes.length := by
  simpa [ofBE] using ofLE_lt bytes.reverse

theorem take_toLE {few width : Nat} (value : Nat) (order : few ≤ width) :
    (toLE width value).take few = toLE few value := by
  induction few generalizing width value with
  | zero => rfl
  | succ few inductionHypothesis =>
    cases width with
    | zero => omega
    | succ width =>
      rw [toLE, toLE, List.take_succ_cons, inductionHypothesis _ (Nat.le_of_succ_le_succ order)]

/-! ## Sums of bytes -/

def byteSum : List UInt8 → Nat
  | [] => 0
  | byte :: bytes => byte.toNat + byteSum bytes

theorem byteSum_append (front back : List UInt8) :
    byteSum (front ++ back) = byteSum front + byteSum back := by
  induction front with
  | nil => rw [List.nil_append, byteSum, Nat.zero_add]
  | cons byte front inductionHypothesis =>
    rw [List.cons_append, byteSum, byteSum, inductionHypothesis, Nat.add_assoc]

/-- Casting out 255s. -/
theorem byteSum_mod (bytes : List UInt8) : byteSum bytes % 255 = ofLE bytes % 255 := by
  induction bytes with
  | nil => rfl
  | cons byte bytes inductionHypothesis =>
    rw [byteSum, ofLE]
    omega

end NuLab.Bytes
