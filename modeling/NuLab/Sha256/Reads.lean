import NuLab.Sha256.Midstate

/-! # Where `sha256_update` reads

The loops once more, with the offsets that are read and what the assertion of
`sha256_push_block` is about.  The first loop takes `len` for what was left when the
block was completed, but neither leaves nor resets `i`: a call that crosses the end of
a begun block misses bytes of its message, or pushes a block into a begun one.
-/

namespace NuLab.Sha256

/-! ## The loops with their reads -/

/-- `ptr - msg` -/
def offset (msg ptr : List UInt8) : Nat := msg.length - ptr.length

/-- Both byte loops; they differ in what a completed block makes of `len`. -/
def tracedBytes (msg : List UInt8) (shorten : UInt32 → UInt32 → UInt32) (ctx : Sha256Ctx) :
    (ptr : List UInt8) → (i len : UInt32) → Option (UpdateVars × List Nat)
  | [], i, len => if i < len then none else some (⟨ctx, [], i, len⟩, [])
  | byte :: ptr, i, len =>
    if i < len then
      match putByte ctx byte with
      | none => none
      | some ctx =>
        (if ctx.index = 64 then tracedBytes msg shorten (sha256Submit ctx) ptr
          (i + 1) (shorten i len)
        else tracedBytes msg shorten ctx ptr (i + 1) len).map
          fun (v, reads) => (v, offset msg (byte :: ptr) :: reads)
    else some (⟨ctx, byte :: ptr, i, len⟩, [])

/-- `completeBlock` with its reads. -/
def tracedComplete (msg : List UInt8) :
    Sha256Ctx → List UInt8 → UInt32 → UInt32 → Option (UpdateVars × List Nat) :=
  tracedBytes msg fun i len => len - 1 - i

/-- `copyTail` with its reads. -/
def tracedTail (msg : List UInt8) :
    Sha256Ctx → List UInt8 → UInt32 → UInt32 → Option (UpdateVars × List Nat) :=
  tracedBytes msg fun _ len => len

/-- `pushBlocks` with its reads, and the index at each entry of `sha256_push_block`. -/
def tracedBlocks (msg : List UInt8) (ctx : Sha256Ctx) (ptr : List UInt8) (i len : UInt32) :
    Option (UpdateVars × List Nat × List UInt32) :=
  if _large : 64 ≤ len then
    match sha256PushBlock ctx ptr with
    | none => none
    | some after =>
      (tracedBlocks msg after (ptr.drop 64) i (len - 64)).map fun (v, reads, entries) =>
        (v, List.range' (offset msg ptr) 64 ++ reads, ctx.index :: entries)
  else some (⟨ctx, ptr, i, len⟩, [], [])
termination_by len.toNat
decreasing_by
  have := UInt32.le_iff_toNat_le.mp _large
  rw [UInt32.toNat_sub_of_le _ _ _large]
  simp only [UInt32.reduceToNat] at this ⊢
  omega

/-- The offsets that a call reads, in order, and the index at each entry of `sha256_push_block`. -/
def tracedUpdate (ctx : Sha256Ctx) (msg : List UInt8) (len : UInt32) :
    Option ((Int × Sha256Ctx) × List Nat × List UInt32) :=
  let msglen := ctx.msglen + len
  if len = 0 then some ((0, ctx), [], [])
  else if msglen < ctx.msglen then some ((EOVERFLOW, ctx), [], [])
  else do
    let ctx := { ctx with msglen := msglen }
    let (v, first) ← if ctx.index ≠ 0 then tracedComplete msg ctx msg 0 len else
      some (⟨ctx, msg, 0, len⟩, [])
    let (v, second, entries) ← tracedBlocks msg v.ctx v.ptr v.i v.len
    let (v, third) ← tracedTail msg v.ctx v.ptr v.i v.len
    some ((0, v.ctx), first ++ second ++ third, entries)

/-- Every byte of the message is read once and in order, nothing else is,
and the assertion holds. -/
def ReadsInOrder (ctx : Sha256Ctx) (memory : Nat → UInt8) (len : UInt32) : Prop :=
  ∃ result reads entries,
    tracedUpdate ctx (readable memory len) len = some (result, reads, entries) ∧
    reads = List.range len.toNat ∧ ∀ index ∈ entries, index = 0

/-! ## Without the reads they are the loops -/

theorem tracedBytes_erase (msg : List UInt8) {shorten : UInt32 → UInt32 → UInt32}
    {loop : Sha256Ctx → List UInt8 → UInt32 → UInt32 → Option UpdateVars}
    (stop : ∀ ctx ptr i len, ¬ i < len → loop ctx ptr i len = some ⟨ctx, ptr, i, len⟩)
    (behind : ∀ ctx i len, i < len → loop ctx [] i len = none)
    (round : ∀ ctx byte ptr i len, i < len → loop ctx (byte :: ptr) i len =
      match putByte ctx byte with
      | none => none
      | some after =>
        if after.index = 64 then loop (sha256Submit after) ptr (i + 1) (shorten i len)
          else loop after ptr (i + 1) len)
    (ctx : Sha256Ctx) (ptr : List UInt8) (i len : UInt32) :
    (tracedBytes msg shorten ctx ptr i len).map Prod.fst = loop ctx ptr i len := by
  induction ptr generalizing ctx i len with
  | nil =>
    rw [tracedBytes]
    by_cases below : i < len
    · rw [if_pos below, behind _ _ _ below]
      rfl
    · rw [if_neg below, stop _ _ _ _ below]
      rfl
  | cons byte ptr inductionHypothesis =>
    rw [tracedBytes]
    by_cases below : i < len
    · rw [if_pos below, round _ _ _ _ _ below]
      cases putByte ctx byte with
      | none => rfl
      | some after =>
        dsimp only
        rw [Option.map_map]
        by_cases full : after.index = 64
        · rw [if_pos full, if_pos full, ← inductionHypothesis]
          rfl
        · rw [if_neg full, if_neg full, ← inductionHypothesis]
          rfl
    · rw [if_neg below, stop _ _ _ _ below]
      rfl

theorem tracedComplete_erase (msg : List UInt8) (ctx : Sha256Ctx) (ptr : List UInt8)
    (i len : UInt32) :
    (tracedComplete msg ctx ptr i len).map Prod.fst = completeBlock ctx ptr i len := by
  apply tracedBytes_erase msg completeBlock_stop
  · intro ctx i len below
    rw [completeBlock, if_pos below]
  · intro ctx byte ptr i len below
    cases put : putByte ctx byte with
    | none => simp [completeBlock, below, put]
    | some after => simp [completeBlock, below, put]

theorem tracedTail_erase (msg : List UInt8) (ctx : Sha256Ctx) (ptr : List UInt8) (i len : UInt32) :
    (tracedTail msg ctx ptr i len).map Prod.fst = copyTail ctx ptr i len := by
  apply tracedBytes_erase msg copyTail_stop
  · intro ctx i len below
    rw [copyTail, if_pos below]
  · intro ctx byte ptr i len below
    cases put : putByte ctx byte with
    | none => simp [copyTail, below, put]
    | some after => simp [copyTail, below, put]

theorem tracedBlocks_erase (msg : List UInt8) (ctx : Sha256Ctx) (ptr : List UInt8)
    (i len : UInt32) :
    (tracedBlocks msg ctx ptr i len).map Prod.fst = pushBlocks ctx ptr i len := by
  rw [tracedBlocks, pushBlocks]
  by_cases large : 64 ≤ len
  · obtain ⟨rest, bound⟩ := rest_toNat large
    rw [dif_pos large, dif_pos large]
    cases sha256PushBlock ctx ptr with
    | none => rfl
    | some after =>
      dsimp only
      rw [← tracedBlocks_erase msg after, Option.map_map]
      rfl
  · rw [dif_neg large, dif_neg large]
    rfl
termination_by len.toNat
decreasing_by omega

theorem lastLoops_erase (msg : List UInt8) (v : UpdateVars) (first : List Nat) :
    ((tracedBlocks msg v.ctx v.ptr v.i v.len).bind fun (w, second, entries) =>
        (tracedTail msg w.ctx w.ptr w.i w.len).bind fun (x, third) =>
          some (((0 : Int), x.ctx), first ++ second ++ third, entries)).map Prod.fst =
      (pushBlocks v.ctx v.ptr v.i v.len).bind fun w =>
        (copyTail w.ctx w.ptr w.i w.len).bind fun x => some (0, x.ctx) := by
  rw [← tracedBlocks_erase msg]
  cases tracedBlocks msg v.ctx v.ptr v.i v.len with
  | none => rfl
  | some pushed =>
    obtain ⟨w, second, entries⟩ := pushed
    simp only [Option.map_some, Option.bind_some, ← tracedTail_erase msg]
    cases tracedTail msg w.ctx w.ptr w.i w.len with
    | none => rfl
    | some copied => rfl

/-- The reads are those of `sha256_update`. -/
theorem tracedUpdate_erase (ctx : Sha256Ctx) (msg : List UInt8) (len : UInt32) :
    (tracedUpdate ctx msg len).map Prod.fst = sha256Update ctx msg len := by
  unfold tracedUpdate sha256Update
  dsimp only
  by_cases empty : len = 0
  · rw [if_pos empty, if_pos empty]
    rfl
  · rw [if_neg empty, if_neg empty]
    by_cases overflow : ctx.msglen + len < ctx.msglen
    · rw [if_pos overflow, if_pos overflow]
      rfl
    · rw [if_neg overflow, if_neg overflow]
      by_cases begun : ctx.index ≠ 0
      · rw [if_pos begun, if_pos begun, ← tracedComplete_erase msg]
        cases tracedComplete msg { ctx with msglen := ctx.msglen + len } msg 0 len with
        | none => rfl
        | some completed => exact lastLoops_erase msg completed.1 completed.2
      · rw [if_neg begun, if_neg begun]
        exact lastLoops_erase msg ⟨{ ctx with msglen := ctx.msglen + len }, msg, 0, len⟩ []

/-! ## How far each loop reads -/

theorem offset_drop {msg ptr : List UInt8} {count : Nat} (inside : count ≤ ptr.length)
    (suffix : ptr.length ≤ msg.length) : offset msg (ptr.drop count) = offset msg ptr + count := by
  rw [offset, offset, List.length_drop]
  omega

/-- A byte loop reads one byte after the other, as many as `i` counts. -/
theorem tracedBytes_reads {msg : List UInt8} {shorten : UInt32 → UInt32 → UInt32} {ctx : Sha256Ctx}
    {ptr : List UInt8} {i len : UInt32} {v : UpdateVars} {reads : List Nat}
    (run : tracedBytes msg shorten ctx ptr i len = some (v, reads))
    (suffix : ptr.length ≤ msg.length) :
    ∃ count, count ≤ ptr.length ∧ v.ptr = ptr.drop count ∧
      reads = List.range' (offset msg ptr) count ∧
      v.i.toNat = i.toNat + count := by
  induction ptr generalizing ctx i len v reads with
  | nil =>
    rw [tracedBytes] at run
    split at run
    · cases run
    · cases run
      exact ⟨0, Nat.le_refl 0, rfl, rfl, rfl⟩
  | cons byte ptr inductionHypothesis =>
    rw [tracedBytes] at run
    split at run
    next below =>
      have next := counter_succ below
      have here : offset msg ((byte :: ptr).drop 1) = offset msg (byte :: ptr) + 1 :=
        offset_drop (Nat.succ_le_succ (Nat.zero_le ptr.length)) suffix
      rw [List.drop_one, List.tail_cons] at here
      rw [List.length_cons] at suffix
      cases stored : putByte ctx byte with
      | none =>
        rw [stored] at run
        cases run
      | some after =>
        rw [stored] at run
        obtain ⟨⟨w, later⟩, rest, same⟩ := Option.map_eq_some_iff.mp run
        cases same
        obtain ⟨count, inside, pointer, offsets, counter⟩ :
            ∃ count, count ≤ ptr.length ∧ v.ptr = ptr.drop count ∧
              later = List.range' (offset msg ptr) count ∧
              v.i.toNat = (i + 1).toNat + count := by
          split at rest
          · exact inductionHypothesis rest (by omega)
          · exact inductionHypothesis rest (by omega)
        refine ⟨count + 1, Nat.succ_le_succ inside, pointer, ?_, by omega⟩
        rw [offsets, here, List.range'_succ]
    next =>
      cases run
      exact ⟨0, Nat.zero_le _, rfl, rfl, rfl⟩

/-- The index at the entries of `sha256_push_block`; the first block leaves 0. -/
def blockEntries (index : UInt32) : Nat → List UInt32
  | 0 => []
  | count + 1 => index :: List.replicate count 0

theorem blockEntries_zero (count : Nat) : blockEntries 0 count = List.replicate count 0 := by
  cases count with
  | zero => rfl
  | succ count => rfl

theorem tracedBlocks_reads (msg : List UInt8) (ctx : Sha256Ctx) (ptr : List UInt8) (i len : UInt32)
    (inside : len.toNat ≤ ptr.length) (suffix : ptr.length ≤ msg.length) (bounded : ctx.Bounded) :
    ∃ v, tracedBlocks msg ctx ptr i len =
      some (v, List.range' (offset msg ptr) (64 * (len.toNat / 64)),
        blockEntries ctx.index (len.toNat / 64)) ∧
      v.ptr = ptr.drop (64 * (len.toNat / 64)) ∧ v.i = i ∧ v.len.toNat = len.toNat % 64 ∧
        v.ctx.Bounded := by
  rw [tracedBlocks]
  by_cases large : 64 ≤ len
  · obtain ⟨rest, bound⟩ := rest_toNat large
    have enough : 64 ≤ ptr.length := Nat.le_trans bound inside
    obtain ⟨block, pushed⟩ := sha256PushBlock_enough ctx enough
    obtain ⟨v, run, pointer, counter, remaining, bounded'⟩ := tracedBlocks_reads msg
      (sha256Submit { ctx with block }) (ptr.drop 64) i (len - 64)
      (by rw [List.length_drop]; omega) (by rw [List.length_drop]; omega) (sha256Submit_bounded _)
    have count : len.toNat / 64 = (len - 64).toNat / 64 + 1 := by omega
    have total : 64 * (len.toNat / 64) = 64 + 64 * ((len - 64).toNat / 64) := by omega
    rw [dif_pos large, pushed]
    refine ⟨v, ?_, ?_, counter, by omega, bounded'⟩
    · dsimp only
      rw [run, Option.map_some, offset_drop enough suffix, total, count, ← List.range'_append_1,
        sha256Submit_index, blockEntries_zero, blockEntries]
    · rw [pointer, List.drop_drop, total]
  · have small : len.toNat < 64 := by rw [UInt32.le_iff_toNat_le] at large; simpa using large
    have none : len.toNat / 64 = 0 := by omega
    rw [dif_neg large]
    exact ⟨⟨ctx, ptr, i, len⟩, by rw [none]; rfl, by rw [none]; rfl, rfl,
      (Nat.mod_eq_of_lt small).symm, bounded⟩
termination_by len.toNat
decreasing_by omega

theorem tracedTail_reads (msg : List UInt8) {ctx : Sha256Ctx} (bounded : ctx.Bounded)
    (ptr : List UInt8) (i len : UInt32) (inside : len.toNat - i.toNat ≤ ptr.length)
    (suffix : ptr.length ≤ msg.length) :
    ∃ v, tracedTail msg ctx ptr i len =
      some (v, List.range' (offset msg ptr) (len.toNat - i.toNat)) := by
  obtain ⟨s, holds⟩ := bounded.buffers
  obtain ⟨v, run, -, rest, -⟩ := copyTail_spec ctx s holds ptr i len inside
  rw [← tracedTail_erase msg] at run
  obtain ⟨⟨w, reads⟩, traced, same⟩ := Option.map_eq_some_iff.mp run
  obtain ⟨count, few, pointer, offsets, -⟩ := tracedBytes_reads traced suffix
  have lengths :=
    congrArg List.length (pointer.symm.trans ((congrArg UpdateVars.ptr same).trans rest))
  rw [List.length_drop, List.length_drop] at lengths
  have all : count = len.toNat - i.toNat := by omega
  rw [all] at offsets
  exact ⟨w, by rw [traced, offsets]⟩

/-! ## A whole call -/

/-- Behind the first loop, which has read the first `v.i` bytes. -/
theorem lastLoops_reads {msg : List UInt8} {v : UpdateVars} (bounded : v.ctx.Bounded)
    (pointer : v.ptr = msg.drop v.i.toNat) (inside : v.i.toNat + v.len.toNat ≤ msg.length) :
    ∃ w x third, tracedBlocks msg v.ctx v.ptr v.i v.len =
        some (w, List.range' v.i.toNat (64 * (v.len.toNat / 64)),
          blockEntries v.ctx.index (v.len.toNat / 64)) ∧
      tracedTail msg w.ctx w.ptr w.i w.len = some (x, third) ∧
      List.range v.i.toNat ++ List.range' v.i.toNat (64 * (v.len.toNat / 64)) ++ third =
        List.range (v.i.toNat + 64 * (v.len.toNat / 64) + (v.len.toNat % 64 - v.i.toNat)) := by
  have length : v.ptr.length = msg.length - v.i.toNat := by rw [pointer, List.length_drop]
  have begins : offset msg v.ptr = v.i.toNat := by rw [offset, length]; omega
  obtain ⟨w, blocks, rest, counter, remaining, bounded'⟩ :=
    tracedBlocks_reads msg v.ctx v.ptr v.i v.len (by omega) (by omega) bounded
  have restLength : w.ptr.length = v.ptr.length - 64 * (v.len.toNat / 64) := by
    rw [rest, List.length_drop]
  obtain ⟨x, tail⟩ := tracedTail_reads msg bounded' w.ptr w.i w.len (by omega) (by omega)
  have continues : offset msg w.ptr = v.i.toNat + 64 * (v.len.toNat / 64) := by
    rw [rest, offset_drop (by omega) (by omega), begins]
  rw [begins] at blocks
  refine ⟨w, x, _, blocks, tail, ?_⟩
  have joined : List.range' 0 v.i.toNat ++ List.range' (0 + v.i.toNat)
      (64 * (v.len.toNat / 64) + (v.len.toNat % 64 - v.i.toNat)) = _ := List.range'_append_1
  rw [continues, remaining, counter, List.range_eq_range', List.range_eq_range', List.append_assoc,
    List.range'_append_1, Nat.add_assoc, ← joined, Nat.zero_add]

/-- The bytes and the index that a call ends up with, from where the first loop ends. -/
theorem readsInOrder_iff_of_run {ctx : Sha256Ctx} {memory : Nat → UInt8} {len : UInt32}
    {v : UpdateVars} (nonempty : len ≠ 0) (room : ctx.msglen.toNat + len.toNat < 2 ^ 32)
    (run : (if ctx.index ≠ 0 then
        tracedComplete (readable memory len) { ctx with msglen := ctx.msglen + len }
          (readable memory len) 0 len
      else some (⟨{ ctx with msglen := ctx.msglen + len }, readable memory len, 0, len⟩, [])) =
      some (v, List.range v.i.toNat))
    (bounded : v.ctx.Bounded) (pointer : v.ptr = (readable memory len).drop v.i.toNat)
    (inside : v.i.toNat + v.len.toNat ≤ 2 * len.toNat) :
    ReadsInOrder ctx memory len ↔
      v.i.toNat + 64 * (v.len.toNat / 64) + (v.len.toNat % 64 - v.i.toNat) = len.toNat ∧
        (v.len.toNat / 64 = 0 ∨ v.ctx.index = 0) := by
  have noOverflow : ¬ ctx.msglen + len < ctx.msglen := by
    rw [UInt32.lt_iff_toNat_lt, UInt32.toNat_add, Nat.mod_eq_of_lt room]
    omega
  obtain ⟨w, x, third, blocks, tail, all⟩ :=
    lastLoops_reads bounded pointer (by rw [readable_length]; exact inside)
  have traced : tracedUpdate ctx (readable memory len) len = some ((0, x.ctx),
      List.range (v.i.toNat + 64 * (v.len.toNat / 64) + (v.len.toNat % 64 - v.i.toNat)),
      blockEntries v.ctx.index (v.len.toNat / 64)) := by
    simp only [tracedUpdate, if_neg nonempty, if_neg noOverflow]
    by_cases begun : ctx.index ≠ 0
    · rw [if_pos begun] at run ⊢
      simp only [run, Option.bind_eq_bind, Option.bind_some, blocks, tail, all]
    · rw [if_neg begun] at run ⊢
      simp only [run, Option.bind_eq_bind, Option.bind_some, blocks, tail, all]
  have entries : (∀ index ∈ blockEntries v.ctx.index (v.len.toNat / 64), index = 0) ↔
      (v.len.toNat / 64 = 0 ∨ v.ctx.index = 0) := by
    cases v.len.toNat / 64 with
    | zero => simp [blockEntries]
    | succ count => simp [blockEntries]
  unfold ReadsInOrder
  rw [← entries]
  constructor
  · intro found
    obtain ⟨result, reads, indices, run', order, asserted⟩ := found
    rw [traced] at run'
    cases run'
    have lengths := congrArg List.length order
    rw [List.length_range, List.length_range] at lengths
    exact ⟨lengths, asserted⟩
  · intro found
    exact ⟨_, _, _, traced, by rw [found.1], found.2⟩

/-- The first loop, with its reads and where it stops. -/
theorem firstLoop_reads {ctx : Sha256Ctx} {msg : List UInt8} {len : UInt32} {v : UpdateVars}
    (run : completeBlock ctx msg 0 len = some v) :
    tracedComplete msg ctx msg 0 len = some (v, List.range v.i.toNat) ∧ v.ptr = msg.drop v.i.toNat ∧
      v.i.toNat ≤ msg.length := by
  rw [← tracedComplete_erase msg] at run
  obtain ⟨⟨w, reads⟩, traced, same⟩ := Option.map_eq_some_iff.mp run
  cases same
  obtain ⟨count, few, pointer, offsets, counter⟩ := tracedBytes_reads traced (Nat.le_refl _)
  rw [UInt32.toNat_zero, Nat.zero_add] at counter
  rw [offset, Nat.sub_self, ← List.range_eq_range'] at offsets
  rw [← counter] at pointer offsets few
  exact ⟨by rw [traced, offsets], pointer, few⟩

/-! ## Crossing the end of a begun block -/

/-- What every round of the first loop preserves, holds when it stops. -/
theorem completeBlock_rule {P : Nat → Nat → Nat → Prop}
    (fills : ∀ index i len, index + 1 = 64 → i < len → P index i len → P 0 (i + 1) (len - 1 - i))
    (goesOn : ∀ index i len, index + 1 < 64 → i < len → P index i len → P (index + 1) (i + 1) len)
    {ctx : Sha256Ctx} (bounded : ctx.Bounded) {ptr : List UInt8} {i len : UInt32} {v : UpdateVars}
    (run : completeBlock ctx ptr i len = some v) (start : P ctx.index.toNat i.toNat len.toNat) :
    P v.ctx.index.toNat v.i.toNat v.len.toNat ∧ v.len.toNat ≤ v.i.toNat := by
  induction ptr generalizing ctx i len with
  | nil =>
    by_cases below : i < len
    · rw [completeBlock, if_pos below] at run
      cases run
    · rw [completeBlock_stop ctx [] i len below] at run
      cases run
      exact ⟨start, Nat.le_of_not_lt fun more => below (UInt32.lt_iff_toNat_lt.mpr more)⟩
  | cons byte ptr inductionHypothesis =>
    by_cases below : i < len
    · have order := UInt32.lt_iff_toNat_lt.mp below
      have next := counter_succ below
      obtain ⟨after, stored, -, -, index, -⟩ := putByte_spec ctx byte bounded
      have room : ctx.index.toNat < 64 := bounded
      rw [completeBlock_round ptr below stored] at run
      by_cases full : after.index = 64
      · have filled : ctx.index.toNat + 1 = 64 := by rw [← index, full]; rfl
        rw [if_pos full] at run
        apply inductionHypothesis (sha256Submit_bounded after) run
        rw [sha256Submit_index, UInt32.toNat_zero, next, left_toNat below]
        exact fills _ _ _ filled order start
      · have partly : after.index.toNat ≠ 64 := fun filled => full (UInt32.toNat_inj.mp filled)
        have kept : after.Bounded := by
          rw [Sha256Ctx.Bounded]
          omega
        rw [if_neg full] at run
        apply inductionHypothesis kept run
        rw [index, next]
        exact goesOn _ _ _ (by omega) order start
    · rw [completeBlock_stop ctx _ i len below] at run
      cases run
      exact ⟨start, Nat.le_of_not_lt fun more => below (UInt32.lt_iff_toNat_lt.mpr more)⟩

/-- Either the begun block is still open, or it has been completed: then as many bytes as
were read before the last completed block are missing in `left` or more, and an open block
has not got behind `left`. -/
def Crossing (begun total index i left : Nat) : Prop :=
  index = begun + i ∧ left = total ∨
    index < i ∧ left + (i - index) ≤ total ∧
      (left + (i - index) = total → i - index < 64 ∧ 0 < left) ∧
      (index ≠ 0 → i ≤ left)

theorem crossing_fills {begun total index i left : Nat} (inside : 0 < begun)
    (crosses : 64 < begun + total) (full : index + 1 = 64) (below : i < left)
    (crossing : Crossing begun total index i left) :
    Crossing begun total 0 (i + 1) (left - 1 - i) := by
  unfold Crossing at *
  omega

theorem crossing_goesOn {begun total index i left : Nat} (below : i < left)
    (crossing : Crossing begun total index i left) :
    Crossing begun total (index + 1) (i + 1) left := by
  unfold Crossing at *
  omega

/-- Where the first loop stops, too few bytes have been read for what the other loops go on with, or
the blocks that they push find a begun one. -/
theorem crossing_misses {begun total index i left : Nat} (crosses : 64 < begun + total)
    (bound : index < 64) (crossing : Crossing begun total index i left) (stopped : left ≤ i) :
    ¬ (i + 64 * (left / 64) + (left % 64 - i) = total ∧ (left / 64 = 0 ∨ index = 0)) := by
  unfold Crossing at crossing
  omega

theorem crosses_not_readsInOrder {ctx : Sha256Ctx} (memory : Nat → UInt8) {len : UInt32}
    (bounded : ctx.Bounded) (room : ctx.msglen.toNat + len.toNat < 2 ^ 32) (begun : ctx.index ≠ 0)
    (crosses : 64 < ctx.index.toNat + len.toNat) : ¬ ReadsInOrder ctx memory len := by
  have bound : ctx.index.toNat < 64 := bounded
  have nonempty : len ≠ 0 := by
    intro empty
    rw [empty, UInt32.toNat_zero] at crosses
    omega
  have positive : 0 < ctx.index.toNat := by
    cases Nat.eq_zero_or_pos ctx.index.toNat with
    | inl zero => exact absurd (UInt32.toNat_inj.mp zero) begun
    | inr positive => exact positive
  have length := readable_length memory len
  obtain ⟨v, run, bounded', fewer, read⟩ :=
    completeBlock_bounded (recount_bounded bounded (ctx.msglen + len))
    (readable memory len) 0 len (by rw [length]; omega)
  obtain ⟨traced, pointer, few⟩ := firstLoop_reads run
  obtain ⟨crossing, stopped⟩ := completeBlock_rule
    (fun index i left full below => crossing_fills positive crosses full below)
    (fun index i left _ below => crossing_goesOn below)
    (recount_bounded bounded (ctx.msglen + len)) run (Or.inl ⟨rfl, rfl⟩)
  have unread : v.ptr.length = (readable memory len).length - v.i.toNat := by
    rw [pointer, List.length_drop]
  have inside : v.i.toNat + v.len.toNat ≤ 2 * len.toNat := by
    rw [UInt32.toNat_zero] at read
    omega
  rw [readsInOrder_iff_of_run nonempty room (by rw [if_pos begun]; exact traced)
    bounded' pointer inside, ← UInt32.toNat_inj]
  exact crossing_misses crosses bounded' crossing stopped

/-- All reads are in order and the assertion holds exactly where the call starts on a block boundary
or ends in the begun block. -/
theorem sha256Update_readsInOrder_iff (ctx : Sha256Ctx) (memory : Nat → UInt8) (len : UInt32)
    (bounded : ctx.index.toNat < 64) (room : ctx.msglen.toNat + len.toNat < 2 ^ 32) :
    ReadsInOrder ctx memory len ↔ ctx.index = 0 ∨ ctx.index.toNat + len.toNat ≤ 64 := by
  have length := readable_length memory len
  by_cases nonempty : len = 0
  · have nothing : ReadsInOrder ctx memory len := by
      rw [nonempty]
      exact ⟨(0, ctx), [], [], by simp [tracedUpdate], rfl, fun index member => by cases member⟩
    refine iff_of_true nothing (Or.inr ?_)
    rw [nonempty, UInt32.toNat_zero]
    omega
  · by_cases aligned : ctx.index = 0
    · have start : (readable memory len).drop (0 : UInt32).toNat = readable memory len := rfl
      refine iff_of_true ?_ (Or.inl aligned)
      rw [readsInOrder_iff_of_run nonempty room (by rw [if_neg (not_not.mpr aligned)]; rfl)
        (recount_bounded bounded (ctx.msglen + len)) start.symm
          (by dsimp only; rw [UInt32.toNat_zero]; omega)]
      dsimp only
      rw [UInt32.toNat_zero]
      exact ⟨by omega, Or.inr aligned⟩
    · by_cases fits : ctx.index.toNat + len.toNat ≤ 64
      · refine iff_of_true ?_ (Or.inr fits)
        obtain ⟨s, holds⟩ := Sha256Ctx.Bounded.buffers (recount_bounded bounded (ctx.msglen + len))
        have begun : 0 < ctx.index.toNat := by
          cases Nat.eq_zero_or_pos ctx.index.toNat with
          | inl zero => exact absurd (UInt32.toNat_inj.mp zero) aligned
          | inr positive => exact positive
        obtain ⟨v, run, -, finished, short, rest, absorbed⟩ :=
          completeBlock_fits _ s holds (readable memory len) 0 len
          begun (by rw [UInt32.toNat_zero]; exact fits) (by omega)
            (by rw [UInt32.toNat_zero]; omega)
        obtain ⟨traced, pointer, few⟩ := firstLoop_reads run
        -- the pointer has gone on by the whole message
        have all : v.i.toNat = len.toNat := by
          have lengths := congrArg List.length (pointer.symm.trans rest)
          rw [List.length_drop, List.length_drop, UInt32.toNat_zero] at lengths
          omega
        rw [readsInOrder_iff_of_run nonempty room (by rw [if_pos aligned]; exact traced)
          absorbed.bounded pointer
          (by omega)]
        exact ⟨by omega, Or.inl (by omega)⟩
      · have crosses : 64 < ctx.index.toNat + len.toNat := Nat.lt_of_not_le fits
        refine iff_of_false (crosses_not_readsInOrder memory bounded room aligned crosses) ?_
        exact not_or.mpr ⟨aligned, fits⟩

theorem sha256Update_readsInOrder_iff_reset :
    ReadsInOrder (sha256Reset Sha256Ctx.zero).2 (fun _ => 7) 100 :=
  (sha256Update_readsInOrder_iff _ _ _ (by decide) (by decide)).mpr (Or.inl rfl)

/-- One byte is pending. -/
def onePending : Sha256Ctx := { Sha256Ctx.zero with index := 1, msglen := 1 }

/-- 64 more are not all read. -/
theorem sha256Update_skips :
    ¬ ∀ (ctx : Sha256Ctx) (memory : Nat → UInt8) (len : UInt32), ctx.index.toNat < 64 →
    ctx.msglen.toNat + len.toNat < 2 ^ 32 → ReadsInOrder ctx memory len := by
  intro always
  have bounded : onePending.index.toNat < 64 := by decide
  have room : onePending.msglen.toNat + (64 : UInt32).toNat < 2 ^ 32 := by decide
  have begun : onePending.index ≠ 0 := by decide
  have crosses : 64 < onePending.index.toNat + (64 : UInt32).toNat := by decide
  exact crosses_not_readsInOrder (fun _ => 7) bounded room begun crosses
    (always onePending (fun _ => 7) 64 bounded room)

end NuLab.Sha256
