import Mathlib.Algebra.Ring.Nat
import Mathlib.Order.Interval.Set.Basic

/-! # Tilings by consecutive intervals

`Tiles lo hi start tiles stop` says that each tile begins where the one before
it ends.  Such tiles are disjoint and cover everything from `start` up to
`stop`.
-/

namespace NuLab.Tiling

variable {α τ : Type*} [LinearOrder α] (lo hi : τ → α)

inductive Tiles : α → List τ → α → Prop where
  | nil (start : α) : Tiles start [] start
  | cons {tile : τ} {tiles : List τ} {stop : α} (nonempty : lo tile < hi tile)
      (rest : Tiles (hi tile) tiles stop) :
      Tiles (lo tile) (tile :: tiles) stop

variable {lo hi}

theorem Tiles.start_le_stop {start stop : α} {tiles : List τ}
    (tiling : Tiles lo hi start tiles stop) :
    start ≤ stop := by
  induction tiling with
  | nil start => exact le_refl start
  | cons nonempty _ inductionHypothesis => exact le_trans (le_of_lt nonempty) inductionHypothesis

theorem Tiles.nonempty {start stop : α} {tiles : List τ} (tiling : Tiles lo hi start tiles stop) :
    ∀ tile ∈ tiles, lo tile < hi tile := by
  induction tiling with
  | nil start => simp
  | cons nonempty _ inductionHypothesis => simpa using ⟨nonempty, inductionHypothesis⟩

theorem Tiles.start_le {start stop : α} {tiles : List τ} (tiling : Tiles lo hi start tiles stop) :
    ∀ tile ∈ tiles, start ≤ lo tile := by
  induction tiling with
  | nil start => simp
  | cons nonempty _ inductionHypothesis =>
    intro tile member
    rcases List.mem_cons.mp member with rfl | later
    · exact le_refl _
    · exact le_trans (le_of_lt nonempty) (inductionHypothesis tile later)

theorem Tiles.disjoint {start stop : α} {tiles : List τ} (tiling : Tiles lo hi start tiles stop) :
    tiles.Pairwise fun first second =>
      ∀ place ∈ Set.Ico (lo first) (hi first), place ∉ Set.Ico (lo second) (hi second) := by
  induction tiling with
  | nil start => exact List.Pairwise.nil
  | cons nonempty rest inductionHypothesis =>
    refine List.Pairwise.cons (fun second member => ?_) inductionHypothesis
    -- every later tile starts where this one ends, or behind
    intro place inFirst inSecond
    exact absurd inSecond.1 (not_le_of_gt (lt_of_lt_of_le inFirst.2 (rest.start_le second member)))

theorem Tiles.cover {start stop : α} {tiles : List τ} (tiling : Tiles lo hi start tiles stop)
    (place : α) :
    (∃ tile ∈ tiles, place ∈ Set.Ico (lo tile) (hi tile)) ↔ start ≤ place ∧ place < stop := by
  induction tiling with
  | nil start => simp
  | @cons first tiles stop nonempty rest inductionHypothesis =>
    constructor
    · rintro ⟨tile, member, inside⟩
      rcases List.mem_cons.mp member with rfl | later
      · exact ⟨inside.1, lt_of_lt_of_le inside.2 rest.start_le_stop⟩
      · obtain ⟨after, before⟩ := inductionHypothesis.mp ⟨tile, later, inside⟩
        exact ⟨le_trans (le_of_lt nonempty) after, before⟩
    · rintro ⟨after, before⟩
      cases lt_or_ge place (hi first) with
      | inl inside => exact ⟨first, List.mem_cons_self, after, inside⟩
      | inr behind =>
        obtain ⟨tile, later, inside⟩ := inductionHypothesis.mpr ⟨behind, before⟩
        exact ⟨tile, List.mem_cons_of_mem first later, inside⟩

/-- Over the natural numbers, the widths add up. -/
theorem Tiles.sum_width {lo hi : τ → Nat} {start stop : Nat} {tiles : List τ}
    (tiling : Tiles lo hi start tiles stop) :
    start + (tiles.map fun tile => hi tile - lo tile).sum = stop := by
  induction tiling with
  | nil start => rfl
  | cons nonempty _ inductionHypothesis =>
    rw [List.map_cons, List.sum_cons]
    omega

end NuLab.Tiling
