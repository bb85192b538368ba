import NuLab.Lib.Bytes

/-! # The 256-bit comparison of `bc_utils.h`

`i256_compare` walks from the most significant byte, which is the last one, and
returns how far it came together with the sign of the first difference.
-/

namespace NuLab

open Bytes

/-- The loop of `i256_compare` over the pairs `L[j], R[j]` from `j = 31` down. -/
def i256CompareLoop : List (UInt8 × UInt8) → Int → Int
  | [], _ => 0
  | (l, r) :: rest, i =>
    let c : Int := (l.toNat : Int) - (r.toNat : Int)
    if c > 0 then 1 + i else if c < 0 then -1 - i else i256CompareLoop rest (i + 1)

def i256Compare (lhs rhs : Vector UInt8 32) : Int :=
  i256CompareLoop (lhs.toList.zip rhs.toList).reverse 0

def i256Le (lhs rhs : Vector UInt8 32) : Bool := i256Compare lhs rhs ≤ 0

/-! ## The sign is that of the difference -/

theorem significant_byte {l r len restL : Nat} (restR : Nat) (less : l < r)
    (boundL : restL < 256 ^ len) :
    restL + 256 ^ len * l < restR + 256 ^ len * r := by
  have : 256 ^ len * (l + 1) ≤ 256 ^ len * r := Nat.mul_le_mul_left _ less
  rw [Nat.mul_add] at this
  omega

theorem i256CompareLoop_sign (pairs : List (UInt8 × UInt8)) (i : Int) (counted : 0 ≤ i) :
    (0 < i256CompareLoop pairs i ↔ ofBE (pairs.map Prod.snd) < ofBE (pairs.map Prod.fst)) ∧
    (i256CompareLoop pairs i < 0 ↔ ofBE (pairs.map Prod.fst) < ofBE (pairs.map Prod.snd)) := by
  induction pairs generalizing i with
  | nil => simp [i256CompareLoop, ofBE, ofLE]
  | cons pair rest inductionHypothesis =>
    obtain ⟨l, r⟩ := pair
    have boundL := ofBE_lt (rest.map Prod.fst)
    have boundR := ofBE_lt (rest.map Prod.snd)
    simp only [List.length_map] at boundL boundR
    simp only [i256CompareLoop, List.map_cons, ofBE_cons, List.length_map]
    -- the first difference decides, as the bytes behind it weigh less than one unit of this one
    rcases Nat.lt_trichotomy l.toNat r.toNat with less | same | more
    · have order := significant_byte (ofBE (rest.map Prod.snd)) less boundL
      rw [if_neg (by omega), if_pos (by omega)]
      omega
    · rw [if_neg (by omega), if_neg (by omega), same, Nat.add_lt_add_iff_right,
        Nat.add_lt_add_iff_right]
      exact inductionHypothesis (i + 1) (by omega)
    · have order := significant_byte (ofBE (rest.map Prod.fst)) more boundR
      rw [if_pos (by omega)]
      omega

theorem i256Compare_sign (lhs rhs : Vector UInt8 32) :
    (0 < i256Compare lhs rhs ↔ ofLE rhs.toList < ofLE lhs.toList) ∧
    (i256Compare lhs rhs < 0 ↔ ofLE lhs.toList < ofLE rhs.toList) := by
  have lengths : lhs.toList.length = rhs.toList.length := by simp
  have left : ofBE ((lhs.toList.zip rhs.toList).reverse.map Prod.fst) = ofLE lhs.toList := by
    rw [ofBE, List.map_reverse, List.reverse_reverse, List.map_fst_zip (Nat.le_of_eq lengths)]
  have right : ofBE ((lhs.toList.zip rhs.toList).reverse.map Prod.snd) = ofLE rhs.toList := by
    rw [ofBE, List.map_reverse, List.reverse_reverse, List.map_snd_zip (Nat.le_of_eq lengths.symm)]
  have sign := i256CompareLoop_sign (lhs.toList.zip rhs.toList).reverse 0 (Int.le_refl 0)
  rw [left, right] at sign
  exact sign

/-- `i256_le` is `<=` of the little-endian numbers. -/
theorem i256Le_iff (lhs rhs : Vector UInt8 32) :
    i256Le lhs rhs = true ↔ ofLE lhs.toList ≤ ofLE rhs.toList := by
  have sign := (i256Compare_sign lhs rhs).1
  rw [i256Le, decide_eq_true_eq]
  omega

/-! ## The size is the position of the first difference -/

/-- How many bytes agree before the first difference, from the most significant byte on. -/
def agreeing (lhs rhs : Vector UInt8 32) : Nat :=
  ((lhs.toList.zip rhs.toList).reverse.takeWhile fun pair => pair.1 = pair.2).length

theorem i256CompareLoop_natAbs (pairs : List (UInt8 × UInt8)) (i : Nat)
    (different : ∃ pair ∈ pairs, pair.1 ≠ pair.2) :
    (i256CompareLoop pairs i).natAbs =
      i + (pairs.takeWhile fun pair => pair.1 = pair.2).length + 1 := by
  induction pairs generalizing i with
  | nil => simp at different
  | cons pair rest inductionHypothesis =>
    obtain ⟨l, r⟩ := pair
    by_cases same : l = r
    · subst same
      have later := inductionHypothesis (i + 1) (by simpa using different)
      rw [Int.natCast_succ] at later
      simp [i256CompareLoop, later]
      omega
    · have unequal := mt UInt8.toNat_inj.mp same
      simp only [i256CompareLoop, List.takeWhile_cons, decide_eq_true_eq,
        if_neg same, List.length_nil]
      split_ifs <;> omega

/-- Exchanging the arguments turns every sign. -/
theorem i256CompareLoop_swap (pairs : List (UInt8 × UInt8)) (i : Int) :
    i256CompareLoop (pairs.map Prod.swap) i = -i256CompareLoop pairs i := by
  induction pairs generalizing i with
  | nil => rfl
  | cons pair rest inductionHypothesis =>
    obtain ⟨l, r⟩ := pair
    simp only [List.map_cons, Prod.swap_prod_mk, i256CompareLoop, inductionHypothesis]
    split_ifs <;> omega

theorem i256Compare_swap (lhs rhs : Vector UInt8 32) :
    i256Compare rhs lhs = -i256Compare lhs rhs := by
  rw [i256Compare, i256Compare, ← i256CompareLoop_swap, List.map_reverse, List.zip_swap]

theorem ofLE_inj {lhs rhs : Vector UInt8 32} (same : ofLE lhs.toList = ofLE rhs.toList) :
    lhs = rhs := by
  apply Vector.toList_inj.mp
  rw [← toLE_ofLE lhs.toList, ← toLE_ofLE rhs.toList, same, Vector.length_toList,
    Vector.length_toList]

theorem i256Compare_natAbs {lhs rhs : Vector UInt8 32} (different : lhs ≠ rhs) :
    (i256Compare lhs rhs).natAbs = agreeing lhs rhs + 1 := by
  have pair : ∃ pair ∈ (lhs.toList.zip rhs.toList).reverse, pair.1 ≠ pair.2 := by
    by_contra none
    have same : ∀ pair ∈ lhs.toList.zip rhs.toList, pair.1 = pair.2 := by simpa using none
    have lengths : lhs.toList.length = rhs.toList.length := by simp
    apply different
    rw [← Vector.toList_inj]
    calc lhs.toList
      _ = (lhs.toList.zip rhs.toList).map Prod.fst := (List.map_fst_zip (Nat.le_of_eq lengths)).symm
      _ = (lhs.toList.zip rhs.toList).map Prod.snd := List.map_congr_left same
      _ = rhs.toList := List.map_snd_zip (Nat.le_of_eq lengths.symm)
  have size := i256CompareLoop_natAbs _ 0 pair
  rw [Nat.zero_add] at size
  exact size

/-- The three-way comparison, and the total order that it gives. -/
theorem i256Compare_spec :
    (∀ lhs rhs : Vector UInt8 32,
      (i256Compare lhs rhs = 0 ↔ ofLE lhs.toList = ofLE rhs.toList) ∧
      (0 < i256Compare lhs rhs ↔ ofLE rhs.toList < ofLE lhs.toList) ∧
      (i256Compare lhs rhs < 0 ↔ ofLE lhs.toList < ofLE rhs.toList) ∧
      (lhs ≠ rhs → (i256Compare lhs rhs).natAbs - 1 = agreeing lhs rhs) ∧
      i256Compare rhs lhs = -i256Compare lhs rhs ∧
      (i256Le lhs rhs = true ↔ ofLE lhs.toList ≤ ofLE rhs.toList)) ∧
    (∀ lhs, i256Le lhs lhs = true) ∧
    (∀ lhs rhs, i256Le lhs rhs = true → i256Le rhs lhs = true → lhs = rhs) ∧
    (∀ lhs rhs other, i256Le lhs rhs = true → i256Le rhs other = true → i256Le lhs other = true) ∧
    ∀ lhs rhs, i256Le lhs rhs = true ∨ i256Le rhs lhs = true := by
  refine ⟨fun lhs rhs => ?_, ?_, ?_, ?_, ?_⟩
  · obtain ⟨positive, negative⟩ := i256Compare_sign lhs rhs
    refine ⟨by omega, positive, negative, fun different => ?_, i256Compare_swap lhs rhs,
      i256Le_iff lhs rhs⟩
    rw [i256Compare_natAbs different, Nat.add_sub_cancel]
  · intro lhs
    exact (i256Le_iff lhs lhs).mpr (Nat.le_refl _)
  · intro lhs rhs below above
    exact ofLE_inj (Nat.le_antisymm ((i256Le_iff lhs rhs).mp below) ((i256Le_iff rhs lhs).mp above))
  · intro lhs rhs other first second
    exact (i256Le_iff lhs other).mpr
      (Nat.le_trans ((i256Le_iff lhs rhs).mp first) ((i256Le_iff rhs other).mp second))
  · intro lhs rhs
    rw [i256Le_iff, i256Le_iff]
    exact Nat.le_total _ _

end NuLab
