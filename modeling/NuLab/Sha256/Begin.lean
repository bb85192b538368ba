import NuLab.Sha256.Midstate

/-! # `sha256_begin` against `sha256_reset` and `sha256_update`

Both feed the message to the context byte by byte, as copying a whole block comes to
the same as filling it.  Nothing is left out: the bytes behind the index are those of
the last whole block in both.
-/

namespace NuLab.Sha256

/-- The bytes go into the block one by one, and every full block is submitted. -/
def feed (ctx : Sha256Ctx) : List UInt8 → Option Sha256Ctx
  | [] => some ctx
  | byte :: bytes => (putByte ctx byte).bind fun after =>
    feed (if after.index = 64 then sha256Submit after else after) bytes

theorem feed_append (ctx : Sha256Ctx) (front back : List UInt8) :
    feed ctx (front ++ back) = (feed ctx front).bind fun middle => feed middle back := by
  induction front generalizing ctx with
  | nil => rfl
  | cons byte front inductionHypothesis =>
    rw [List.cons_append, feed, feed, Option.bind_assoc]
    refine Option.bind_congr fun after _ => ?_
    exact inductionHypothesis _

theorem feed_bounded {ctx : Sha256Ctx} (bounded : ctx.Bounded) (bytes : List UInt8) :
    ∃ after, feed ctx bytes = some after := by
  induction bytes generalizing ctx with
  | nil => exact ⟨ctx, rfl⟩
  | cons byte bytes inductionHypothesis =>
    obtain ⟨after, stored, kept⟩ := putByte_bounded byte bounded
    obtain ⟨final, run⟩ := inductionHypothesis kept
    exact ⟨final, by rw [feed, stored, Option.bind_some, run]⟩

/-! ## Counting does not matter -/

def recount (msglen : UInt32) (ctx : Sha256Ctx) : Sha256Ctx := { ctx with msglen := msglen }

theorem putByte_recount (msglen : UInt32) (ctx : Sha256Ctx) (byte : UInt8) :
    putByte (recount msglen ctx) byte = (putByte ctx byte).map (recount msglen) := by
  unfold putByte
  by_cases inside : ctx.index.toNat < 64
  · rw [dif_pos inside, dif_pos (show (recount msglen ctx).index.toNat < 64 from inside)]
    rfl
  · rw [dif_neg inside, dif_neg (show ¬ (recount msglen ctx).index.toNat < 64 from inside)]
    rfl

theorem feed_recount (msglen : UInt32) (ctx : Sha256Ctx) (bytes : List UInt8) :
    feed (recount msglen ctx) bytes = (feed ctx bytes).map (recount msglen) := by
  induction bytes generalizing ctx with
  | nil => rfl
  | cons byte bytes inductionHypothesis =>
    rw [feed, feed, putByte_recount]
    cases putByte ctx byte with
    | none => rfl
    | some after =>
      rw [Option.map_some, Option.bind_some, Option.bind_some, ← inductionHypothesis]
      by_cases full : after.index = 64
      · rw [if_pos full, if_pos (show (recount msglen after).index = 64 from full)]
        rfl
      · rw [if_neg full, if_neg (show ¬ (recount msglen after).index = 64 from full)]

/-! ## The loops feed the context -/

theorem copyTail_feed (ctx : Sha256Ctx) (ptr : List UInt8) (i len : UInt32)
    (inside : len.toNat - i.toNat ≤ ptr.length) :
    (copyTail ctx ptr i len).map UpdateVars.ctx = feed ctx (ptr.take (len.toNat - i.toNat)) := by
  induction ptr generalizing ctx i with
  | nil =>
    rw [List.length_nil, Nat.le_zero] at inside
    have nothing : ¬ i < len := by rw [UInt32.lt_iff_toNat_lt]; omega
    rw [copyTail_stop ctx [] i len nothing, List.take_nil]
    rfl
  | cons byte ptr inductionHypothesis =>
    by_cases below : i < len
    · have split := counter_left below
      rw [List.length_cons] at inside
      rw [split, List.take_succ_cons, feed, copyTail, if_pos below]
      cases putByte ctx byte with
      | none => rfl
      | some after =>
        dsimp only
        rw [Option.bind_some]
        by_cases full : after.index = 64
        · rw [if_pos full, if_pos full]
          exact inductionHypothesis _ _ (by omega)
        · rw [if_neg full, if_neg full]
          exact inductionHypothesis _ _ (by omega)
    · have nothing : len.toNat - i.toNat = 0 := by rw [UInt32.lt_iff_toNat_lt] at below; omega
      rw [copyTail_stop ctx _ i len below, nothing, List.take_zero]
      rfl

/-- Bytes that fill the begun block. -/
theorem feed_fill (ctx : Sha256Ctx) (bytes : List UInt8) (nonempty : bytes ≠ [])
    (fill : ctx.index.toNat + bytes.length = 64) :
    ∃ block : Vector UInt8 64, block.toList = ctx.block.toList.take ctx.index.toNat ++ bytes ∧
      feed ctx bytes = some (sha256Submit { ctx with block := block }) := by
  induction bytes generalizing ctx with
  | nil => exact absurd rfl nonempty
  | cons byte bytes inductionHypothesis =>
    rw [List.length_cons] at fill
    have inside : ctx.index.toNat < 64 := by omega
    have next := counter_succ (UInt32.lt_iff_toNat_lt.mpr inside : ctx.index < 64)
    have stored : putByte ctx byte =
        some { ctx with block := ctx.block.set ctx.index.toNat byte, index := ctx.index + 1 } :=
          dif_pos inside
    obtain ⟨after, stored', -, -, index, front⟩ := putByte_spec ctx byte inside
    rw [stored, Option.some.injEq] at stored'
    rw [feed, stored, Option.bind_some]
    cases bytes with
    | nil =>
      have full : ctx.index + 1 = 64 := UInt32.toNat_inj.mp (by rw [next]; exact fill)
      refine ⟨ctx.block.set ctx.index.toNat byte, ?_, ?_⟩
      · rw [← front, ← stored', full]
        exact (List.take_of_length_le (by simp)).symm
      · rw [if_pos full]
        rfl
    | cons byte' bytes =>
      rw [List.length_cons] at fill
      have partly : ¬ ctx.index + 1 = 64 := by
        intro full
        rw [full] at next
        have filled : (64 : UInt32).toNat = 64 := rfl
        omega
      rw [if_neg partly]
      obtain ⟨block, content, run⟩ := inductionHypothesis
        { ctx with block := ctx.block.set ctx.index.toNat byte, index := ctx.index + 1 }
          (List.cons_ne_nil _ _)
        (by rw [List.length_cons, next]; omega)
      refine ⟨block, ?_, run⟩
      rw [← stored'] at front
      rw [content, List.append_cons (ctx.block.toList.take ctx.index.toNat), ← front]

/-- Copying a block is feeding it to an empty one. -/
theorem sha256PushBlock_feed {ctx : Sha256Ctx} (empty : ctx.index = 0) (ptr : List UInt8)
    (readable : 64 ≤ ptr.length) :
    sha256PushBlock ctx ptr = feed ctx (ptr.take 64) := by
  have length : (ptr.take 64).length = 64 := by rw [List.length_take]; omega
  obtain ⟨block, content, run⟩ := feed_fill ctx (ptr.take 64)
    (fun none => by rw [none] at length; exact absurd length (by decide))
    (by rw [empty, length]; rfl)
  rw [empty, UInt32.toNat_zero, List.take_zero, List.nil_append] at content
  have same : block = ⟨(ptr.take 64).toArray, by simpa using readable⟩ :=
    Vector.toList_inj.mp (by rw [content]; simp)
  rw [run, sha256PushBlock, dif_pos readable, same]

theorem pushBlocks_feed {ctx : Sha256Ctx} (empty : ctx.index = 0) (ptr : List UInt8)
    (i len : UInt32) (readable : len.toNat ≤ ptr.length) :
    ∃ v, pushBlocks ctx ptr i len = some v ∧
      feed ctx (ptr.take (64 * (len.toNat / 64))) = some v.ctx ∧
      v.ptr = ptr.drop (64 * (len.toNat / 64)) ∧ v.i = i ∧ v.len.toNat = len.toNat % 64 := by
  rw [pushBlocks]
  by_cases large : 64 ≤ len
  · obtain ⟨rest, bound⟩ := rest_toNat large
    have enough : 64 ≤ ptr.length := Nat.le_trans bound readable
    have total : 64 * (len.toNat / 64) = 64 + 64 * ((len - 64).toNat / 64) := by omega
    obtain ⟨block, pushed⟩ := sha256PushBlock_enough ctx enough
    obtain ⟨v, run, fed, pointer, counter, remaining⟩ :=
      pushBlocks_feed (sha256Submit_index { ctx with block })
        (ptr.drop 64) i (len - 64) (by rw [List.length_drop]; omega)
    rw [dif_pos large, pushed]
    refine ⟨v, run, ?_, ?_, counter, by omega⟩
    · rw [total, List.take_add, feed_append, ← sha256PushBlock_feed empty ptr enough, pushed,
        Option.bind_some, fed]
    · rw [pointer, List.drop_drop, total]
  · have small : len.toNat < 64 := by rw [UInt32.le_iff_toNat_le] at large; simpa using large
    have none : len.toNat / 64 = 0 := by omega
    rw [dif_neg large, none]
    exact ⟨⟨ctx, ptr, i, len⟩, rfl, rfl, rfl, rfl, (Nat.mod_eq_of_lt small).symm⟩
termination_by len.toNat
decreasing_by omega

/-! ## The two functions -/

theorem sha256Update_feed {ctx : Sha256Ctx} (empty : ctx.index = 0) (msg : List UInt8)
    (len : UInt32) (room : ctx.msglen.toNat + len.toNat < 2 ^ 32)
    (readable : len.toNat ≤ msg.length) :
    sha256Update ctx msg len =
      (feed ctx (msg.take len.toNat)).map fun after => (0, recount (ctx.msglen + len) after) := by
  by_cases nothing : len = 0
  · rw [nothing, sha256Update, if_pos rfl, UInt32.add_zero, UInt32.toNat_zero, List.take_zero]
    rfl
  · have noOverflow : ¬ ctx.msglen + len < ctx.msglen := by
      rw [UInt32.lt_iff_toNat_lt, UInt32.toNat_add, Nat.mod_eq_of_lt room]
      omega
    obtain ⟨v, run, fed, pointer, counter, remaining⟩ :=
      pushBlocks_feed (show (recount (ctx.msglen + len) ctx).index = 0 from empty)
        msg 0 len readable
    have tail := copyTail_feed v.ctx v.ptr v.i v.len (by
      rw [pointer, counter, remaining, List.length_drop, UInt32.toNat_zero]
      omega)
    -- the tail starts where the blocks end, and what both of them feed is the message
    have whole : feed (recount (ctx.msglen + len) ctx) (msg.take len.toNat) =
        (copyTail v.ctx v.ptr v.i v.len).map UpdateVars.ctx := by
      rw [tail, pointer, counter, remaining, UInt32.toNat_zero, Nat.sub_zero]
      have parts : len.toNat = 64 * (len.toNat / 64) + len.toNat % 64 := (Nat.div_add_mod _ _).symm
      rw [parts, List.take_add, feed_append, ← parts, fed, Option.bind_some]
    rw [feed_recount] at whole
    have run' : pushBlocks { ctx with msglen := ctx.msglen + len } msg 0 len = some v := run
    simp only [sha256Update, if_neg nothing, if_neg noOverflow, if_neg (not_not.mpr empty),
      Option.bind_eq_bind, Option.bind_some, run']
    have results := congrArg (Option.map fun after : Sha256Ctx => ((0 : Int), after)) whole
    rw [Option.map_map, Option.map_map] at results
    exact (Option.map_eq_bind ..).symm.trans results.symm

/-- `sha256_begin` leaves the same context as a reset and one update. -/
theorem sha256Begin_eq_update (ctx : Sha256Ctx) (msg : List UInt8) (len : UInt32)
    (readable : len.toNat ≤ msg.length) :
    ∃ after, sha256Begin ctx msg len = some (0, after) ∧
      sha256Update (sha256Reset ctx).2 msg len = some (0, after) := by
  obtain ⟨fed, run⟩ := feed_bounded (sha256Reset_bounded ctx) (msg.take len.toNat)
  have bytes : hashBytes (sha256Reset ctx).2 msg len = some fed := by
    rw [hashBytes, copyTail_feed _ _ _ _ (by rw [UInt32.toNat_zero]; exact readable),
      UInt32.toNat_zero, Nat.sub_zero, run]
  refine ⟨recount len fed, ?_, ?_⟩
  · simp only [sha256Reset] at bytes
    simp [sha256Begin, sha256Reset, bytes, recount]
  · have room : (sha256Reset ctx).2.msglen.toNat + len.toNat < 2 ^ 32 := by
      have bound := len.toNat_lt
      have zero : (sha256Reset ctx).2.msglen.toNat = 0 := rfl
      omega
    rw [sha256Update_feed rfl msg len room readable, run, Option.map_some,
      show (sha256Reset ctx).2.msglen = 0 from rfl, UInt32.zero_add]

theorem sha256Begin_eq_update_three :
    ∃ after, sha256Begin Sha256Ctx.zero [1, 2, 3] 3 = some (0, after) ∧
      sha256Update (sha256Reset Sha256Ctx.zero).2 [1, 2, 3] 3 = some (0, after) :=
  sha256Begin_eq_update Sha256Ctx.zero [1, 2, 3] 3 (by decide)

end NuLab.Sha256
