import Mathlib.Data.List.Basic
import NuLab.Json.Code

/-! # Spans of C strings: `nu_cspan_from_cstrn`

`memory` is a function of the address, as the array may end without a NUL and what lies
behind it may be read.  The places that are read are recorded.
-/

namespace NuLab.Json

/-- The loop `while (*e && n--)`: where `e` ends, and what was read. -/
def cstrnLoop (memory : Nat → UInt8) (e n : Nat) : Nat × List Nat :=
  if memory e ≠ 0 then
    match n with
    -- the count is looked at behind the character
    | 0 => (e, [e])
    | n + 1 =>
      let (fin, reads) := cstrnLoop memory (e + 1) n
      (fin, e :: reads)
  else (e, [e])

/-- The span and the places that are read; `none` as an address is NULL. -/
def nuCspanFromCstrn (memory : Nat → UInt8) (cs : Option Nat) (n : UInt64) :
    Option NuCspan × List Nat :=
  match cs with
  | none => (none, [])
  | some cs =>
    if n ≠ 0 then
      let (fin, reads) := cstrnLoop memory cs n.toNat
      (some ⟨cs, fin⟩, reads)
    else (some ⟨cs, cs⟩, [])

/-! ## What the loop reads -/

/-- The array of `n` characters at `cs`. -/
def arrayAt (memory : Nat → UInt8) (cs n : Nat) : List UInt8 :=
  (List.range n).map fun i => memory (cs + i)

theorem arrayAt_length (memory : Nat → UInt8) (cs n : Nat) : (arrayAt memory cs n).length = n := by
  rw [arrayAt, List.length_map, List.length_range]

theorem arrayAt_succ (memory : Nat → UInt8) (cs n : Nat) :
    arrayAt memory cs (n + 1) = memory cs :: arrayAt memory (cs + 1) n := by
  rw [arrayAt, List.range_succ_eq_map, List.map_cons, List.map_map, arrayAt]
  simp [Function.comp_def, Nat.add_left_comm, Nat.add_comm]

/-- All places up to the one where the loop stops are read, and that one, too. -/
theorem cstrnLoop_spec (memory : Nat → UInt8) (e n : Nat) :
    cstrnLoop memory e n = (e + (arrayAt memory e n).idxOf 0,
      (List.range ((arrayAt memory e n).idxOf 0 + 1)).map (e + ·)) := by
  induction n generalizing e with
  | zero =>
    rw [cstrnLoop]
    simp [arrayAt]
  | succ n inductionHypothesis =>
    rw [cstrnLoop, arrayAt_succ]
    by_cases terminated : memory e = 0
    · simp [terminated]
    · have later := inductionHypothesis (e + 1)
      rw [List.idxOf_cons_ne _ terminated, List.range_succ_eq_map]
      simp only [ne_eq, terminated, not_false_eq_true, if_true, later, List.map_cons,
        List.map_map, Nat.add_zero]
      simp [Function.comp_def, Nat.add_assoc, Nat.add_comm 1]

/-- The span up to the first NUL of the array, or all of it, without a look at what is behind. -/
def SpansArray (memory : Nat → UInt8) (cs : Nat) (n : UInt64) : Prop :=
  (nuCspanFromCstrn memory (some cs) n).1 =
    some ⟨cs, cs + min ((arrayAt memory cs n.toNat).idxOf 0) n.toNat⟩ ∧
    ∀ place ∈ (nuCspanFromCstrn memory (some cs) n).2, place < cs + n.toNat

/-- The array is left exactly when it is not empty and has no NUL. -/
theorem nuCspanFromCstrn_iff (memory : Nat → UInt8) (cs : Nat) (n : UInt64) :
    SpansArray memory cs n ↔ n = 0 ∨ 0 ∈ arrayAt memory cs n.toNat := by
  have size := arrayAt_length memory cs n.toNat
  have inside : (arrayAt memory cs n.toNat).idxOf 0 ≤ (arrayAt memory cs n.toNat).length :=
    List.idxOf_le_length
  rw [size] at inside
  by_cases empty : n = 0
  · subst empty
    simp [SpansArray, nuCspanFromCstrn]
  · rw [SpansArray, Nat.min_eq_left inside, or_iff_right empty,
      ← List.idxOf_lt_length_iff (l := arrayAt memory cs n.toNat), size]
    simp only [nuCspanFromCstrn, ne_eq, empty, not_false_eq_true, if_true, cstrnLoop_spec, true_and]
    constructor
    · intro below
      have last := below (cs + (arrayAt memory cs n.toNat).idxOf 0)
        (List.mem_map.mpr ⟨_, List.mem_range.mpr (Nat.lt_succ_self _), rfl⟩)
      omega
    · intro terminated place read
      obtain ⟨i, member, rfl⟩ := List.mem_map.mp read
      have before := List.mem_range.mp member
      omega

/-- An array of one character that is not NUL: the place behind it is read. -/
theorem nuCspanFromCstrn_unterminated : ¬ ∀ memory cs n, SpansArray memory cs n := by
  intro always
  have read : 1 ∈ (nuCspanFromCstrn (fun _ => 65) (some 0) 1).2 := by decide
  exact absurd ((always (fun _ => 65) 0 1).2 1 read) (by decide)

end NuLab.Json
