import Mathlib.Algebra.Ring.Nat
import Mathlib.Data.List.Basic
import Mathlib.Logic.Function.Iterate

/-! # Reducing a list level by level

`halve f` combines neighbours and pairs the last element of an odd level with
itself.  `reduce f` repeats this until one element is left.
-/

namespace NuLab.Levels

variable {α : Type*} (f : α → α → α)

def halve : List α → List α
  | [] => []
  | [last] => [f last last]
  | left :: right :: rest => f left right :: halve rest

@[simp] theorem halve_length (level : List α) :
    (halve f level).length = (level.length + 1) / 2 := by
  induction level using halve.induct with
  | case1 => simp [halve]
  | case2 last => simp [halve]
  | case3 left right rest inductionHypothesis =>
    rw [halve, List.length_cons, inductionHypothesis, List.length_cons, List.length_cons]
    omega

/-- A position with both of its children. -/
theorem halve_pair {level : List α} {i : Nat} (inside : 2 * i + 1 < level.length) :
    (halve f level)[i]? = some (f level[2 * i] level[2 * i + 1]) := by
  induction level using halve.induct generalizing i with
  | case1 => simp at inside
  | case2 last => simp at inside
  | case3 left right rest inductionHypothesis =>
    cases i with
    | zero => rfl
    | succ i =>
      rw [List.length_cons, List.length_cons] at inside
      rw [halve, List.getElem?_cons_succ, inductionHypothesis (by omega)]
      rfl

/-- The last position of an odd level. -/
theorem halve_last {level : List α} {i : Nat} (odd : level.length = 2 * i + 1) :
    (halve f level)[i]? = some (f level[2 * i] level[2 * i]) := by
  induction level using halve.induct generalizing i with
  | case1 => simp at odd
  | case2 last =>
    obtain rfl : i = 0 := by rw [List.length_singleton] at odd; omega
    rfl
  | case3 left right rest inductionHypothesis =>
    cases i with
    | zero => simp at odd
    | succ i =>
      rw [List.length_cons, List.length_cons] at odd
      rw [halve, List.getElem?_cons_succ, inductionHypothesis (by omega)]
      rfl

/-- The element that is left in the end; an empty list has none. -/
def reduce : List α → Option α
  | [] => none
  | [last] => some last
  | left :: right :: rest => reduce (halve f (left :: right :: rest))
termination_by level => level.length
decreasing_by
  simp only [halve_length, List.length_cons]
  omega

theorem reduce_halve {level : List α} (several : 1 < level.length) :
    reduce f level = reduce f (halve f level) := by
  cases level with
  | nil => simp at several
  | cons left rest =>
    cases rest with
    | nil => simp at several
    | cons right rest => rw [reduce]

theorem reduce_one {level : List α} (one : level.length = 1) : reduce f level = level[0]? := by
  obtain ⟨last, rfl⟩ := List.length_eq_one_iff.mp one
  rw [reduce]
  rfl

theorem reduce_isSome (level : List α) (nonempty : 0 < level.length) :
    ∃ last, reduce f level = some last := by
  induction level using reduce.induct f with
  | case1 => simp at nonempty
  | case2 last => exact ⟨last, by rw [reduce]⟩
  | case3 left right rest inductionHypothesis =>
    rw [reduce]
    exact inductionHypothesis (by rw [halve_length, List.length_cons, List.length_cons]; omega)

theorem halve_append {front : List α} (even : front.length % 2 = 0) (back : List α) :
    halve f (front ++ back) = halve f front ++ halve f back := by
  induction front using halve.induct with
  | case1 => rfl
  | case2 last => simp at even
  | case3 left right rest inductionHypothesis =>
    have shorter : rest.length % 2 = 0 := by
      rw [List.length_cons, List.length_cons] at even
      omega
    rw [List.cons_append, List.cons_append, halve, inductionHypothesis shorter,
      halve, List.cons_append]

/-! ## Lists with the same result -/

/-- The last elements of a list, as many as the level `k` combines into one, can be repeated
if that level is odd. -/
theorem reduce_doubled (k : Nat) {front back : List α} (size : back.length = 2 ^ k)
    (nonempty : 0 < front.length) (whole : 2 ^ (k + 1) ∣ front.length) :
    reduce f (front ++ (back ++ back)) = reduce f (front ++ back) := by
  have positive : 0 < 2 ^ k := Nat.two_pow_pos k
  have even : front.length % 2 = 0 :=
    Nat.mod_eq_zero_of_dvd (Nat.dvd_trans (Nat.dvd_mul_left 2 (2 ^ k)) whole)
  have both : 1 < (front ++ (back ++ back)).length := by
    simp only [List.length_append]
    omega
  have one : 1 < (front ++ back).length := by
    simp only [List.length_append]
    omega
  rw [reduce_halve f both, reduce_halve f one, halve_append f even, halve_append f even]
  cases k with
  | zero =>
    obtain ⟨last, rfl⟩ := List.length_eq_one_iff.mp size
    rfl
  | succ k =>
    have evenBack : back.length % 2 = 0 := by
      rw [size, Nat.pow_succ]
      omega
    rw [halve_append f evenBack]
    apply reduce_doubled k
    · rw [halve_length, size, Nat.pow_succ]
      omega
    · rw [halve_length]
      omega
    · rw [halve_length]
      obtain ⟨parts, length⟩ := whole
      refine ⟨parts, ?_⟩
      rw [length, Nat.pow_succ, Nat.mul_right_comm]
      omega

/-- The pairs whose combinations are the next level. -/
def pairs : List α → List (α × α)
  | [] => []
  | [last] => [(last, last)]
  | left :: right :: rest => (left, right) :: pairs rest

theorem halve_eq_map (level : List α) :
    halve f level = (pairs level).map fun pair => f pair.1 pair.2 := by
  induction level using halve.induct with
  | case1 => rfl
  | case2 last => rfl
  | case3 left right rest inductionHypothesis =>
    rw [halve, inductionHypothesis, pairs, List.map_cons]

theorem pairs_injective {a b : List α} (length : a.length = b.length) (same : pairs a = pairs b) :
    a = b := by
  induction a using halve.induct generalizing b with
  | case1 => exact (List.length_eq_zero_iff.mp length.symm).symm
  | case2 last =>
    obtain ⟨last', rfl⟩ := List.length_eq_one_iff.mp length.symm
    simp only [pairs, List.cons.injEq, Prod.mk.injEq] at same
    rw [same.1.1]
  | case3 left right rest inductionHypothesis =>
    cases b with
    | nil => simp at length
    | cons left' rest' =>
      cases rest' with
      | nil => simp at length
      | cons right' rest' =>
        simp only [pairs, List.cons.injEq, Prod.mk.injEq] at same
        rw [same.1.1, same.1.2, inductionHypothesis (by simpa using length) same.2]

/-- In one and the same place two different pairs have the same combination. -/
def PairClash (ps qs : List (α × α)) : Prop :=
  ∃ (i : Nat) (p q : α × α), ps[i]? = some p ∧ qs[i]? = some q ∧ p ≠ q ∧ f p.1 p.2 = f q.1 q.2

/-- This happens on some level. -/
def Clash (a b : List α) : Prop :=
  ∃ level, PairClash f (pairs ((halve f)^[level] a)) (pairs ((halve f)^[level] b))

theorem pairs_of_map {ps qs : List (α × α)}
    (same : (ps.map fun pair => f pair.1 pair.2) = qs.map fun pair => f pair.1 pair.2) :
    ps = qs ∨ PairClash f ps qs := by
  induction ps generalizing qs with
  | nil => exact .inl (List.map_eq_nil_iff.mp same.symm).symm
  | cons p ps inductionHypothesis =>
    cases qs with
    | nil => cases same
    | cons q qs =>
      simp only [List.map_cons, List.cons.injEq] at same
      by_cases equal : p = q
      · cases inductionHypothesis same.2 with
        | inl rest => exact .inl (by rw [equal, rest])
        | inr clash =>
          obtain ⟨i, clash⟩ := clash
          exact .inr ⟨i + 1, clash⟩
      · exact .inr ⟨0, p, q, rfl, rfl, equal, same.1⟩

/-- Lists of one length with the same result are the same, or different pairs have the same
combination on the way. -/
theorem eq_of_reduce {a b : List α} (length : a.length = b.length)
    (same : reduce f a = reduce f b) :
    a = b ∨ Clash f a b := by
  induction a using reduce.induct f generalizing b with
  | case1 => exact .inl (List.length_eq_zero_iff.mp length.symm).symm
  | case2 last =>
    obtain ⟨last', rfl⟩ := List.length_eq_one_iff.mp length.symm
    rw [reduce, reduce, Option.some.injEq] at same
    exact .inl (by rw [same])
  | case3 left right rest inductionHypothesis =>
    have several : 1 < b.length := by
      rw [← length]
      simp
    rw [reduce, reduce_halve f several] at same
    have length' : (halve f (left :: right :: rest)).length = (halve f b).length := by
      rw [halve_length, halve_length, length]
    cases inductionHypothesis length' same with
    | inl next =>
      rw [halve_eq_map, halve_eq_map] at next
      cases pairs_of_map f next with
      | inl equal => exact .inl (pairs_injective length equal)
      | inr clash => exact .inr ⟨0, clash⟩
    | inr clash =>
      obtain ⟨level, clash⟩ := clash
      exact .inr ⟨level + 1, clash⟩

end NuLab.Levels
