import Mathlib.Data.List.Basic
import Mathlib.Data.List.Range

/-! # Folding a stream block by block

A `Stream` consumes items one at a time, keeps those of the block that is not
full yet, and folds every completed block into an accumulator.  `absorb` is the
meaning of feeding a list; since it is a left fold, cutting the list changes
nothing.  `absorb_blocks` gives the same value without a buffer, as a fold over
the blocks of the whole list.
-/

namespace NuLab.BlockFold

variable {σ β : Type*} {B : Nat}

/-- The accumulator of the complete blocks and the items of the block begun. -/
@[ext] structure Stream (σ β : Type*) (B : Nat) where
  acc : σ
  pending : List β
  short : pending.length < B

def Stream.push (fold : σ → List β → σ) (s : Stream σ β B) (item : β) : Stream σ β B :=
  if full : s.pending.length + 1 = B then
    ⟨fold s.acc (s.pending ++ [item]), [], by simp only [List.length_nil]; omega⟩
  else
    ⟨s.acc, s.pending ++ [item],
      by have := s.short; simp only [List.length_append, List.length_singleton]; omega⟩

def Stream.absorb (fold : σ → List β → σ) (s : Stream σ β B) (items : List β) : Stream σ β B :=
  items.foldl (Stream.push fold) s

/-- The consecutive complete blocks of a list. -/
def blocks (B : Nat) (items : List β) : List (List β) :=
  (List.range (items.length / B)).map fun i => (items.drop (B * i)).take B

variable (fold : σ → List β → σ) (s : Stream σ β B)

@[simp] theorem absorb_nil : s.absorb fold [] = s := rfl

@[simp] theorem absorb_cons (item : β) (items : List β) :
    s.absorb fold (item :: items) = (s.push fold item).absorb fold items := rfl

theorem absorb_append (first second : List β) :
    s.absorb fold (first ++ second) = (s.absorb fold first).absorb fold second :=
  List.foldl_append

theorem push_short (item : β) (bound : s.pending.length + 1 < B) :
    s.push fold item = ⟨s.acc, s.pending ++ [item], by rw [List.length_append]; exact bound⟩ := by
  rw [Stream.push, dif_neg (by omega)]

theorem push_fill (item : β) (full : s.pending.length + 1 = B) :
    s.push fold item =
      ⟨fold s.acc (s.pending ++ [item]), [], by simp only [List.length_nil]; omega⟩ := by
  rw [Stream.push, dif_pos full]

/-- Items that do not complete the block are only appended to it. -/
theorem absorb_short (items : List β) (bound : s.pending.length + items.length < B) :
    s.absorb fold items = ⟨s.acc, s.pending ++ items, by rw [List.length_append]; exact bound⟩ := by
  induction items generalizing s with
  | nil => simp
  | cons item items inductionHypothesis =>
    simp only [List.length_cons] at bound
    rw [absorb_cons, push_short fold s item (by omega), inductionHypothesis]
    · simp
    · simp only [List.length_append, List.length_singleton]; omega

/-- Items that exactly complete the block fold it and leave an empty buffer. -/
theorem absorb_fill (items : List β) (full : s.pending.length + items.length = B) :
    s.absorb fold items =
      ⟨fold s.acc (s.pending ++ items), [],
        by have := s.short; simp only [List.length_nil]; omega⟩ := by
  have short := s.short
  -- only the last item completes the block
  obtain ⟨front, last, rfl⟩ : ∃ front last, items = front ++ [last] := by
    have nonempty : items ≠ [] := by rintro rfl; simp at full; omega
    exact ⟨_, _, (List.dropLast_append_getLast nonempty).symm⟩
  simp only [List.length_append, List.length_singleton] at full
  rw [absorb_append, absorb_short fold s front (by omega), absorb_cons, absorb_nil, push_fill]
  · simp
  · simp only [List.length_append]; omega

theorem absorb_fill_acc (items : List β) (full : s.pending.length + items.length = B) :
    (s.absorb fold items).acc = fold s.acc (s.pending ++ items) := by
  rw [absorb_fill fold s items full]

/-- One whole block on an empty buffer. -/
theorem absorb_block (acc : σ) (short : ([] : List β).length < B) (items : List β)
    (length : items.length = B) :
    Stream.absorb fold ⟨acc, [], short⟩ items = ⟨fold acc items, [], short⟩ := by
  simpa using absorb_fill fold ⟨acc, [], short⟩ items (by simpa using length)

theorem absorb_pending_length (items : List β) :
    (s.absorb fold items).pending.length = (s.pending.length + items.length) % B := by
  induction items generalizing s with
  | nil => simp [Nat.mod_eq_of_lt s.short]
  | cons item items inductionHypothesis =>
    have short := s.short
    rw [absorb_cons, inductionHypothesis]
    by_cases full : s.pending.length + 1 = B
    · rw [push_fill fold s item full, List.length_cons, ← Nat.add_assoc, Nat.add_right_comm, full]
      simp
    · rw [push_short fold s item (by omega)]
      simp only [List.length_append, List.length_cons, List.length_nil, Nat.add_assoc,
        Nat.zero_add, Nat.add_comm 1]

theorem blocks_of_length (items : List β) (count : Nat) (positive : 0 < B)
    (length : items.length = B * (count + 1)) :
    blocks B items = items.take B :: blocks B (items.drop B) := by
  have whole : items.length / B = count + 1 := by rw [length, Nat.mul_div_cancel_left _ positive]
  have tail : (items.drop B).length / B = count := by
    rw [List.length_drop, length, Nat.mul_succ, Nat.add_sub_cancel,
      Nat.mul_div_cancel_left _ positive]
  rw [blocks, blocks, whole, tail, List.range_succ_eq_map, List.map_cons, List.map_map]
  simp only [Nat.mul_zero, List.drop_zero, List.cons.injEq, true_and]
  apply List.map_congr_left
  intro i _
  simp only [Function.comp_apply, List.drop_drop, Nat.succ_eq_add_one, Nat.mul_add,
    Nat.mul_one, Nat.add_comm]

@[simp] theorem blocks_length (items : List β) : (blocks B items).length = items.length / B := by
  simp [blocks]

theorem blocks_getElem (items : List β) (i : Nat) (inside : i < (blocks B items).length) :
    (blocks B items)[i] = (items.drop (B * i)).take B := by
  simp [blocks]

theorem block_end {i count : Nat} (inside : i < count) : B * i + B ≤ B * count := by
  rw [← Nat.mul_succ]; exact Nat.mul_le_mul_left B inside

theorem blocks_take (items : List β) {count : Nat} (inside : count ≤ items.length) :
    blocks B (items.take count) = (blocks B items).take (count / B) := by
  have length : (items.take count).length = count := List.length_take_of_le inside
  apply List.ext_getElem
  · rw [blocks_length, length, List.length_take, blocks_length,
      Nat.min_eq_left (Nat.div_le_div_right inside)]
  · intro i small _
    rw [List.getElem_take, blocks_getElem, blocks_getElem]
    rw [blocks_length, length] at small
    have ends := Nat.le_trans (block_end (B := B) small) (Nat.mul_div_le count B)
    rw [List.drop_take, List.take_take, Nat.min_eq_left (by omega)]

/-- What is appended leaves the complete blocks as they are. -/
theorem blocks_prefix {front whole : List β} (longer : front <+: whole) :
    blocks B front <+: blocks B whole := by
  rw [List.prefix_iff_eq_take.mp longer, blocks_take whole longer.length_le]
  exact List.take_prefix _ _

/-- Replacing one whole block. -/
theorem blocks_splice (items value : List β) (i : Nat) (inside : B * i + B ≤ items.length)
    (size : value.length = B) :
    blocks B (items.take (B * i) ++ (value ++ items.drop (B * i + B))) =
      (blocks B items).set i value := by
  have front : (items.take (B * i)).length = B * i := by rw [List.length_take]; omega
  apply List.ext_getElem
  · simp only [blocks_length, List.length_append, List.length_drop, List.length_set, front, size]
    congr 1
    omega
  · -- a block before the replaced one, that block itself, or one behind it
    intro j _ small
    rw [List.length_set, blocks_length] at small
    rw [blocks_getElem, List.getElem_set]
    by_cases here : i = j
    · subst here
      rw [if_pos rfl, List.drop_left' front, List.take_left' size]
    · rw [if_neg here, blocks_getElem]
      cases Nat.lt_or_gt_of_ne here with
      | inl later =>
        have starts := block_end (B := B) later
        rw [← List.append_assoc, List.drop_append, List.drop_of_length_le, List.nil_append,
          List.drop_drop, List.length_append, front, size, Nat.add_sub_cancel' starts]
        rw [List.length_append, front, size]; exact starts
      | inr earlier =>
        have stops := block_end (B := B) earlier
        rw [List.drop_append_of_le_length (by omega),
          List.take_append_of_le_length (by rw [List.length_drop]; omega), List.drop_take,
          List.take_take, Nat.min_eq_left (by omega)]

/-- Absorbing whole blocks into an empty buffer is the fold over the blocks. -/
theorem absorb_blocks (items : List β) (count : Nat) (length : items.length = B * count)
    (empty : s.pending = []) :
    s.absorb fold items =
      ⟨(blocks B items).foldl fold s.acc, [],
        by have := s.short; simp [empty] at this ⊢; omega⟩ := by
  have positive : 0 < B := by have := s.short; omega
  induction count generalizing items s with
  | zero =>
    obtain rfl : items = [] := List.length_eq_zero_iff.mp length
    ext <;> simp [blocks, empty]
  | succ count inductionHypothesis =>
    have head : (items.take B).length = B := by
      rw [List.length_take, length]; exact Nat.min_eq_left (Nat.le_mul_of_pos_right B (by omega))
    have tail : (items.drop B).length = B * count := by
      rw [List.length_drop, length, Nat.mul_succ, Nat.add_sub_cancel]
    rw [← List.take_append_drop B items, absorb_append, List.take_append_drop,
      absorb_fill fold s (items.take B) (by simp [empty, head]),
      inductionHypothesis _ (items.drop B) tail rfl]
    simp [blocks_of_length items count positive length, empty]

end NuLab.BlockFold
