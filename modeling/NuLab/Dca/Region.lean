import NuLab.Dca.Bounds

/-! # All bytes of the array

`Region pp used body` also tells what stands behind the used bytes.  A call with room
leaves `body` in front of what the allocator added; a call without it fails.  Elements
begin behind the header, at 16.
-/

namespace NuLab.Dca

/-- `body` is the whole capacity, of which `used` bytes are used. -/
inductive Region : Option Block → UInt64 → List UInt8 → Prop where
  | empty : Region none 0 []
  | block {p : Block} {base : DcaBase} {body : List UInt8} (intact : Intact 16 p base body) :
      Region (some p) base.blen body

/-- The region after a call that needs `total` bytes. -/
def grown (body : List UInt8) (total : Nat) (reply : Option Grant) : List UInt8 :=
  body ++ ((reply.map fun grant => freshBytes grant (16 + body.length) (16 + total)).getD [])

/-- The bytes behind the header, used or not. -/
def capacityBytes (pp : Option Block) : List UInt8 :=
  (pp.map fun p => p.bytes.drop sizeofBase).getD []

/-- The capacity is enough, or the allocator answers with a block, and its size is a `size_t`. -/
def HasRoom (pp : Option Block) (total : Nat) (reply : Option Grant) : Prop :=
  Grows pp total → reply.isSome = true ∧ 16 + total ≤ SIZE_MAX

theorem region_of_intact {pp : Option Block} (intact : IntactArray 16 pp) :
    ∃ used body, Region pp used body := by
  cases pp with
  | none => exact ⟨0, [], Region.empty⟩
  | some p =>
    obtain ⟨base, body, holds⟩ := intact p rfl
    exact ⟨base.blen, body, Region.block holds⟩

theorem grown_same {body : List UInt8} {total : Nat} (enough : total ≤ body.length)
    (reply : Option Grant) : grown body total reply = body := by
  cases reply with
  | none => simp [grown]
  | some grant =>
    have nothing : 16 + total - (16 + body.length) = 0 := by omega
    simp [grown, freshBytes, nothing]

section

variable {pp : Option Block} {used : UInt64} {body : List UInt8}

theorem Region.length (region : Region pp used body) :
    (nuDcaCapacityInBytes pp).toNat = body.length := by
  cases region with
  | empty => rfl
  | block intact =>
    have full := intact.full
    rw [intact.capacityInBytes]
    simp only [UInt64.reduceToNat] at full
    omega

theorem Region.size (region : Region pp used body) : nuDcaSizeInBytes pp = used := by
  cases region with
  | empty => rfl
  | block intact => exact intact.sizeInBytes

theorem Region.used_le (region : Region pp used body) : used.toNat ≤ body.length := by
  rw [← region.length]
  cases region with
  | empty => exact Nat.le_refl 0
  | block intact =>
    rw [intact.capacityInBytes]
    exact intact.ordered

theorem Region.dataBytes (region : Region pp used body) :
    dataBytes 16 pp = body.take used.toNat := by
  cases region with
  | empty => rfl
  | block intact => exact intact.dataBytes (Nat.le_refl 16)

theorem Region.used_length (region : Region pp used body) :
    (Dca.dataBytes 16 pp).length = used.toNat := by
  rw [region.dataBytes, List.length_take, Nat.min_eq_left region.used_le]

theorem Region.capacityBytes (region : Region pp used body) : capacityBytes pp = body := by
  cases region with
  | empty => rfl
  | block intact =>
    rw [Dca.capacityBytes, Option.map_some, Option.getD_some, intact.bytes, sizeofBase,
      List.drop_left' (baseBytes_length _)]

theorem Region.length_le (region : Region pp used body) : body.length ≤ SIZE_MAX := by
  have := (nuDcaCapacityInBytes pp).toNat_lt
  rw [← region.length, SIZE_MAX]
  omega

theorem Region.grows_iff (region : Region pp used body) (total : Nat) :
    Grows pp total ↔ pp = none ∨ body.length < total := by
  rw [Grows, region.length]

theorem grown_length (region : Region pp used body) {total : Nat} {reply : Option Grant}
    (room : HasRoom pp total reply) : (grown body total reply).length = max body.length total := by
  by_cases enough : total ≤ body.length
  · rw [grown_same enough, Nat.max_eq_left enough]
  · have order := Nat.lt_of_not_le enough
    obtain ⟨received, -⟩ := room ((region.grows_iff total).mpr (Or.inr order))
    obtain ⟨grant, rfl⟩ := Option.isSome_iff_exists.mp received
    simp only [grown, Option.map_some, Option.getD_some, List.length_append, freshBytes_length]
    omega

theorem grown_take (region : Region pp used body) (total : Nat) (reply : Option Grant) :
    (grown body total reply).take used.toNat = body.take used.toNat := by
  rw [grown, List.take_append_of_le_length region.used_le]

/-- What was added lies in front of the requested end. -/
theorem grown_drop (region : Region pp used body) {count total : Nat} {reply : Option Grant}
    (room : HasRoom pp total reply) (order : total ≤ count) :
    (grown body total reply).drop count = body.drop count := by
  by_cases enough : total ≤ body.length
  · rw [grown_same enough]
  · have length := grown_length region room
    rw [List.drop_of_length_le (by omega), List.drop_of_length_le (by omega)]

/-! ## `nu_dca_reserve_bytes` -/

/-- The test of the code. -/
theorem Intact.grows_iff {p : Block} {base : DcaBase} (intact : Intact 16 p base body)
    {nb : UInt64} : Grows (some p) nb.toNat ↔ base.bcap < nb := by
  rw [Grows, intact.capacityInBytes, ← UInt64.lt_iff_toNat_lt]
  simp

theorem reserve_room (region : Region pp used body) (nb : UInt64) {reply : Option Grant}
    (room : HasRoom pp nb.toNat reply) :
    ∃ out p base, nuDcaReserveBytes pp 16 nb reply = some out ∧
      Reserved 16 nb pp out p base (grown body nb.toNat reply) := by
  by_cases grows : Grows pp nb.toNat
  · obtain ⟨received, fits⟩ := room grows
    obtain ⟨grant, rfl⟩ := Option.isSome_iff_exists.mp received
    cases region with
    | empty =>
      obtain ⟨out, p, run, reserved⟩ := reserveBytes_first 16 nb grant (Nat.le_refl 16) fits
      exact ⟨out, p, _, run, reserved⟩
    | @block p base body intact =>
      have small := intact.grows_iff.mp grows
      obtain ⟨out, q, run, reserved⟩ :=
        reserveBytes_moved 16 nb grant (Nat.le_refl 16) p base body intact small fits
      exact ⟨out, q, _, run, reserved⟩
  · cases region with
    | empty => exact absurd (Or.inl rfl) grows
    | @block p base body intact =>
      have enough := mt intact.grows_iff.mpr grows
      have capacity := Nat.le_of_not_lt (mt UInt64.lt_iff_toNat_lt.mpr enough)
      rw [← intact.capacityInBytes, (Region.block intact).length] at capacity
      rw [grown_same capacity]
      refine ⟨⟨some (p.addr + (16 : UInt64).toNat), some p, []⟩, p, base, ?_, rfl, rfl, intact,
        UInt64.le_iff_toNat_le.mp (UInt64.not_lt.mp enough), intact.sizeInBytes.symm, rfl,
        List.prefix_refl _⟩
      simp only [nuDcaReserveBytes, base_read intact.bytes, if_neg enough, Option.bind_eq_bind,
        Option.bind_some]

theorem reserve_refused (region : Region pp used body) (nb : UInt64) (grows : Grows pp nb.toNat) :
    ∃ calls, nuDcaReserveBytes pp 16 nb none = some ⟨none, pp, calls⟩ := by
  cases region with
  | empty => exact ⟨_, rfl⟩
  | @block p base body intact =>
    have small := intact.grows_iff.mp grows
    refine ⟨[.consume (some p.addr) (16 + nb) alignofBase], ?_⟩
    simp only [nuDcaReserveBytes, base_read intact.bytes, if_pos small, Option.bind_eq_bind,
      Option.bind_some, memConsume, Option.map_none]

/-- The size wraps, and the block that is granted is too small for the header. -/
theorem reserve_tooLarge (region : Region pp used body) (nb : UInt64) (grant : Grant)
    (grows : Grows pp nb.toNat) (wraps : SIZE_MAX < 16 + nb.toNat) :
    nuDcaReserveBytes pp 16 nb (some grant) = none := by
  have tiny : (16 + nb : UInt64).toNat < sizeofBase := by
    have := nb.toNat_lt
    rw [UInt64.toNat_add, sizeofBase]
    simp only [SIZE_MAX, UInt64.reduceToNat] at wraps ⊢
    omega
  cases region with
  | empty =>
    obtain ⟨p, received, length, -⟩ := memConsume_length [] (16 + nb) grant
    have noHeader : p.setBase ⟨0, 0⟩ = none := by rw [Block.setBase, if_neg (by rw [length]; omega)]
    simp only [nuDcaReserveBytes, received, noHeader]
    rfl
  | @block p base body intact =>
    have small := intact.grows_iff.mp grows
    obtain ⟨moved, received, length, -⟩ := memConsume_length p.bytes (16 + nb) grant
    have noHeader : moved.base = none := by rw [Block.base, if_neg (by rw [length]; omega)]
    simp only [nuDcaReserveBytes, base_read intact.bytes, if_pos small, Option.bind_eq_bind,
      Option.bind_some, received, recordCapacity, noHeader]
    rfl

/-! ## `nu_dca_consume_bytes` -/

theorem Region.intact (region : Region pp used body) : IntactArray 16 pp := by
  cases region with
  | empty => exact intactArray_none 16
  | block intact => exact intact.array

theorem Region.sum_le (region : Region pp used body) {nb : UInt64} {reply : Option Grant}
    (room : HasRoom pp (used.toNat + nb.toNat) reply) : used.toNat + nb.toNat ≤ SIZE_MAX := by
  by_cases grows : Grows pp (used.toNat + nb.toNat)
  · have fits := (room grows).2
    omega
  · rw [region.grows_iff, not_or, Nat.not_lt] at grows
    exact Nat.le_trans grows.2 region.length_le

theorem consume_room (region : Region pp used body) (nb : UInt64) {reply : Option Grant}
    (room : HasRoom pp (used.toNat + nb.toNat) reply) :
    ∃ out p after, nuDcaConsumeBytes pp 16 nb reply = some out ∧
      out.ret = some (p.addr + 16 + used.toNat) ∧
      out.pp = some p ∧ Region (some p) after (grown body (used.toNat + nb.toNat) reply) ∧
      after.toNat = used.toNat + nb.toNat := by
  have fits := region.sum_le room
  have sum := total_toNat fits
  have header : 16 ≤ (16 : UInt64).toNat := Nat.le_refl 16
  obtain ⟨middle, p, base, reserve, reserved⟩ :=
    reserve_room region (used + nb) (by rw [sum]; exact room)
  obtain rfl : base.blen = used := reserved.sameSize.trans region.size
  have enough := reserved.enough
  rw [sum] at enough reserved
  obtain ⟨q, written, consumed⟩ :=
    setLength_consumed header reserved.intact reserved.sameSize reserved.sameData reserved.kept
    enough middle.calls
  have address := consumed.ret
  have length := consumed.size
  rw [region.size] at address length
  refine ⟨_, q, _, ?_, address, consumed.pp, Region.block consumed.intact, length⟩
  rw [consumeBytes_eq 16 nb pp reply region.intact (by rw [region.size]; exact fits), region.size,
    reserve, Option.bind_some]
  simp only [recordLength, reserved.ret, reserved.pp, base_read reserved.intact.bytes,
    Option.bind_eq_bind, Option.bind_some, written]

/-- Without room the array stays as it is, or the header is written outside of the block. -/
theorem consume_noRoom (region : Region pp used body) (nb : UInt64) {reply : Option Grant}
    (noRoom : ¬ HasRoom pp (used.toNat + nb.toNat) reply) :
    nuDcaConsumeBytes pp 16 nb reply = none ∨ ∃ calls, nuDcaConsumeBytes pp 16 nb reply =
      some ⟨none, pp, calls⟩ := by
  obtain ⟨grows, unserved⟩ := Classical.not_imp.mp noRoom
  by_cases fits : used.toNat + nb.toNat ≤ SIZE_MAX
  · have sum := total_toNat fits
    have again : Grows pp (used + nb).toNat := by rw [sum]; exact grows
    rw [consumeBytes_eq 16 nb pp reply region.intact (by rw [region.size]; exact fits), region.size]
    cases reply with
    | none =>
      obtain ⟨calls, refused⟩ := reserve_refused region (used + nb) again
      refine Or.inr ⟨calls, ?_⟩
      rw [refused, Option.bind_some]
      rfl
    | some grant =>
      have wraps : SIZE_MAX < 16 + (used + nb).toNat := by
        rw [sum]
        exact Nat.lt_of_not_le fun small => unserved ⟨rfl, small⟩
      rw [reserve_tooLarge region (used + nb) grant again wraps]
      exact Or.inl rfl
  · exact Or.inr ⟨[], consumeBytes_wrapped 16 nb pp reply region.intact
      (by rw [region.size]; exact Nat.lt_of_not_le fits)⟩

/-! ## Arrays of single bytes -/

theorem ckdMul_one (nb : UInt64) : ckdMul nb 1 = some nb := by
  have checked : nb.toNat * (1 : UInt64).toNat ≤ SIZE_MAX := by
    have := nb.toNat_lt
    simp only [SIZE_MAX, UInt64.reduceToNat]
    omega
  rw [ckdMul, if_pos checked, UInt64.mul_one]

theorem mboxReserve_bytes (pp : Option Block) (nb : UInt64) (reply : Option Grant) :
    nuMboxDcaReserve pp 16 1 nb reply = nuDcaReserveBytes pp 16 nb reply := by
  simp only [nuMboxDcaReserve, ckdMul_one]

theorem mboxConsume_bytes (pp : Option Block) (nb : UInt64) (reply : Option Grant) :
    nuMboxDcaConsume pp 16 1 nb reply = nuDcaConsumeBytes pp 16 nb reply := by
  simp only [nuMboxDcaConsume, ckdMul_one]

end

end NuLab.Dca
