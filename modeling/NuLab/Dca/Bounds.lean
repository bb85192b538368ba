import NuLab.Dca.Code
import NuLab.Lib.Run

/-! # Bounds of the dynamic array

`Intact off p base body` says that a block is a header followed by `body`, that
it has exactly the size the header implies, and that the length is within the
capacity.  Reserving keeps it unless `off + nb` wraps.
-/

namespace NuLab.Dca

open NuLab.Bytes NuLab.Run

/-! ## Header and body -/

@[simp] theorem baseBytes_length (base : DcaBase) : (baseBytes base).length = 16 := by
  simp [baseBytes]

theorem ofLE_size (n : UInt64) : UInt64.ofNat (ofLE (toLE 8 n.toNat)) = n := by
  rw [ofLE_toLE_of_lt (by simpa using n.toNat_lt), UInt64.ofNat_toNat]

theorem base_read {p : Block} {base : DcaBase} {body : List UInt8}
    (bytes : p.bytes = baseBytes base ++ body) :
    p.base = some base := by
  have cap : p.bytes.take 8 = toLE 8 base.bcap.toNat := by
    rw [bytes, baseBytes, List.append_assoc, List.take_left' (toLE_length 8 _)]
  have len : (p.bytes.drop 8).take 8 = toLE 8 base.blen.toNat := by
    rw [bytes, baseBytes, List.append_assoc, List.drop_left' (toLE_length 8 _),
      List.take_left' (toLE_length 8 _)]
  rw [Block.base,
    if_pos (by rw [bytes, List.length_append, baseBytes_length]; exact Nat.le_add_right _ _), cap,
    len, ofLE_size, ofLE_size]

theorem setBase_write {p : Block} {base : DcaBase} {body : List UInt8}
    (bytes : p.bytes = baseBytes base ++ body) (new : DcaBase) :
    p.setBase new = some ⟨p.addr, baseBytes new ++ body⟩ := by
  rw [Block.setBase,
    if_pos (by rw [bytes, List.length_append, baseBytes_length]; exact Nat.le_add_right _ _), bytes,
    sizeofBase, List.drop_left' (baseBytes_length base)]

theorem setBase_some {p q : Block} {new : DcaBase} (written : p.setBase new = some q) :
    q.base = some new ∧ q.bytes.length = p.bytes.length ∧ q.addr = p.addr := by
  unfold Block.setBase at written
  split at written
  next large =>
    obtain rfl := Option.some.inj written
    refine ⟨base_read rfl, ?_, rfl⟩
    rw [List.length_append, baseBytes_length, List.length_drop]
    exact Nat.add_sub_cancel' large
  next => cases written

theorem recordCapacity_write {p : Block} {base : DcaBase} {body : List UInt8}
    (bytes : p.bytes = baseBytes base ++ body) (nb : UInt64) (ordered : base.blen ≤ nb) :
    recordCapacity p nb = some ⟨p.addr, baseBytes ⟨nb, base.blen⟩ ++ body⟩ := by
  have kept : ¬ base.blen > nb := UInt64.not_lt.mpr ordered
  rw [recordCapacity, base_read bytes, Option.bind_eq_bind, Option.bind_some, if_neg kept,
    setBase_write bytes]

theorem recordCapacity_some {p q : Block} {nb : UInt64} (written : recordCapacity p nb = some q) :
    ∃ base, q.base = some base ∧ base.bcap = nb ∧ q.bytes.length = p.bytes.length := by
  obtain ⟨base, -, written⟩ := Option.bind_eq_some_iff.mp written
  obtain ⟨read, length, -⟩ := setBase_some written
  exact ⟨_, read, rfl, length⟩

/-- The block is header and body, has the size the header implies, and holds no
more than its capacity. -/
structure Intact (off : UInt64) (p : Block) (base : DcaBase) (body : List UInt8) : Prop where
  bytes : p.bytes = baseBytes base ++ body
  full : 16 + body.length = off.toNat + base.bcap.toNat
  ordered : base.blen.toNat ≤ base.bcap.toNat

def IntactArray (off : UInt64) (pp : Option Block) : Prop :=
  ∀ p, pp = some p → ∃ base body, Intact off p base body

theorem Intact.sizeInBytes {off : UInt64} {p : Block} {base : DcaBase} {body : List UInt8}
    (intact : Intact off p base body) : nuDcaSizeInBytes (some p) = base.blen := by
  simp [nuDcaSizeInBytes, base_read intact.bytes]

theorem Intact.capacityInBytes {off : UInt64} {p : Block} {base : DcaBase} {body : List UInt8}
    (intact : Intact off p base body) : nuDcaCapacityInBytes (some p) = base.bcap := by
  simp [nuDcaCapacityInBytes, base_read intact.bytes]

theorem Intact.array {off : UInt64} {p : Block} {base : DcaBase} {body : List UInt8}
    (intact : Intact off p base body) : IntactArray off (some p) := by
  rintro _ ⟨⟩
  exact ⟨base, body, intact⟩

theorem intactArray_none (off : UInt64) : IntactArray off none := by
  rintro _ ⟨⟩

theorem baseOrZero_read {off : UInt64} {pp : Option Block} (intact : IntactArray off pp) :
    ∃ base, baseOrZero pp = some base ∧ base.blen = nuDcaSizeInBytes pp ∧
      base.bcap = nuDcaCapacityInBytes pp := by
  cases pp with
  | none => exact ⟨⟨0, 0⟩, rfl, rfl, rfl⟩
  | some p =>
    obtain ⟨base, body, holds⟩ := intact p rfl
    exact ⟨base, base_read holds.bytes, holds.sizeInBytes.symm, holds.capacityInBytes.symm⟩

/-! ## `nu_dca_reserve_bytes` -/

/-- The used bytes behind the header. -/
def dataBytes (off : UInt64) (pp : Option Block) : List UInt8 :=
  match pp with
  | none => []
  | some p => (p.bytes.drop off.toNat).take (nuDcaSizeInBytes pp).toNat

theorem Intact.dataBytes {off : UInt64} {p : Block} {base : DcaBase} {body : List UInt8}
    (intact : Intact off p base body) (header : 16 ≤ off.toNat) :
    dataBytes off (some p) = (body.drop (off.toNat - 16)).take base.blen.toNat := by
  have skipped : p.bytes.drop off.toNat = body.drop (off.toNat - 16) := by
    rw [intact.bytes, List.drop_append, baseBytes_length,
      List.drop_of_length_le (by simpa using header), List.nil_append]
  rw [Dca.dataBytes, skipped, intact.sizeInBytes]

/-- The bytes behind the header, used or not. -/
def grantedBytes (off : UInt64) (pp : Option Block) : List UInt8 :=
  match pp with
  | none => []
  | some p => (p.bytes.drop off.toNat).take (nuDcaCapacityInBytes pp).toNat

theorem Intact.grantedBytes {off : UInt64} {p : Block} {base : DcaBase} {body : List UInt8}
    (intact : Intact off p base body) (header : 16 ≤ off.toNat) :
    grantedBytes off (some p) = body.drop (off.toNat - 16) := by
  have full := intact.full
  rw [Dca.grantedBytes, intact.bytes, List.drop_append, baseBytes_length,
    List.drop_of_length_le (by simpa using header), List.nil_append, intact.capacityInBytes,
    List.take_of_length_le (by rw [List.length_drop]; omega)]

/-- What a successful `nu_dca_reserve_bytes` leaves. -/
structure Reserved (off nb : UInt64) (before : Option Block) (out : Outcome) (p : Block)
    (base : DcaBase) (body : List UInt8) : Prop where
  ret : out.ret = some (p.addr + off.toNat)
  pp : out.pp = some p
  intact : Intact off p base body
  enough : nb.toNat ≤ base.bcap.toNat
  sameSize : base.blen = nuDcaSizeInBytes before
  sameData : dataBytes off (some p) = dataBytes off before
  kept : grantedBytes off before <+: grantedBytes off (some p)

/-- The array has to grow: nothing is allocated yet, or too little. -/
def Grows (pp : Option Block) (total : Nat) : Prop :=
  pp = none ∨ (nuDcaCapacityInBytes pp).toNat < total

/-- What stands in the granted block from `start` to `stop`. -/
def freshBytes (grant : Grant) (start stop : Nat) : List UInt8 :=
  (List.range (stop - start)).map fun k => grant.fresh (start + k)

@[simp] theorem freshBytes_length (grant : Grant) (start stop : Nat) :
    (freshBytes grant start stop).length = stop - start := by
  simp [freshBytes]

theorem freshBytes_drop (grant : Grant) (count stop : Nat) :
    (freshBytes grant 0 stop).drop count = freshBytes grant count stop := by
  apply List.ext_getElem
  · simp
  · intro k _ _
    simp [freshBytes]

theorem memConsume_grow (old : List UInt8) (nb : UInt64) (grant : Grant)
    (grows : old.length ≤ nb.toNat) :
    memConsume old nb (some grant) =
      some ⟨grant.addr, old ++ freshBytes grant old.length nb.toNat⟩ := by
  simp only [memConsume, Option.map_some, List.take_of_length_le grows, freshBytes]

theorem memConsume_length (old : List UInt8) (nb : UInt64) (grant : Grant) :
    ∃ p, memConsume old nb (some grant) = some p ∧ p.bytes.length = nb.toNat ∧
      p.addr = grant.addr := by
  refine ⟨_, rfl, ?_, rfl⟩
  simp only [List.length_append, List.length_take, List.length_map, List.length_range]
  omega

theorem total_toNat {off nb : UInt64} (fits : off.toNat + nb.toNat ≤ SIZE_MAX) :
    (off + nb).toNat = off.toNat + nb.toNat := by
  rw [UInt64.toNat_add, Nat.mod_eq_of_lt (by simp only [SIZE_MAX] at fits; omega)]

theorem reserveBytes_first (off nb : UInt64) (grant : Grant) (header : 16 ≤ off.toNat)
    (fits : off.toNat + nb.toNat ≤ SIZE_MAX) :
    ∃ out p, nuDcaReserveBytes none off nb (some grant) = some out ∧
      Reserved off nb none out p ⟨nb, 0⟩ (freshBytes grant 16 (off.toNat + nb.toNat)) := by
  have granted := memConsume_grow [] (off + nb) grant (Nat.zero_le _)
  rw [List.nil_append, List.length_nil, total_toNat fits] at granted
  have length := freshBytes_length grant 0 (off.toNat + nb.toNat)
  have zeroed : Block.setBase ⟨grant.addr, freshBytes grant 0 (off.toNat + nb.toNat)⟩ ⟨0, 0⟩ =
      some ⟨grant.addr, baseBytes ⟨0, 0⟩ ++ freshBytes grant 16 (off.toNat + nb.toNat)⟩ := by
    rw [Block.setBase, if_pos (by simp only [sizeofBase, length]; omega),
      sizeofBase, freshBytes_drop]
  have recorded := recordCapacity_write (p := ⟨grant.addr, baseBytes ⟨0, 0⟩ ++
    freshBytes grant 16 (off.toNat + nb.toNat)⟩) rfl nb (UInt64.le_iff_toNat_le.mpr (Nat.zero_le _))
  have intact :
    Intact off ⟨grant.addr, baseBytes ⟨nb, 0⟩ ++ freshBytes grant 16 (off.toNat + nb.toNat)⟩ ⟨nb, 0⟩
      (freshBytes grant 16 (off.toNat + nb.toNat)) :=
    ⟨rfl, by rw [freshBytes_length]; dsimp only; omega, Nat.zero_le _⟩
  refine ⟨⟨some (grant.addr + off.toNat), some _, [.consume none (off + nb) alignofBase]⟩, _, ?_,
    rfl, rfl, intact, Nat.le_refl _, rfl, ?_, List.nil_prefix⟩
  · simp only [nuDcaReserveBytes, granted, zeroed, recorded, Option.bind_eq_bind, Option.bind_some]
  · rw [intact.dataBytes header]; rfl

theorem reserveBytes_moved (off nb : UInt64) (grant : Grant) (header : 16 ≤ off.toNat) (old : Block)
    (base : DcaBase) (body : List UInt8) (holds : Intact off old base body) (small : base.bcap < nb)
    (fits : off.toNat + nb.toNat ≤ SIZE_MAX) :
    ∃ out p, nuDcaReserveBytes (some old) off nb (some grant) = some out ∧
      Reserved off nb (some old) out p ⟨nb, base.blen⟩
        (body ++ freshBytes grant (16 + body.length) (off.toNat + nb.toNat)) := by
  have order := UInt64.lt_iff_toNat_lt.mp small
  have full := holds.full
  have ordered := holds.ordered
  have oldLength : old.bytes.length = 16 + body.length := by
    rw [holds.bytes, List.length_append, baseBytes_length]
  have granted : memConsume old.bytes (off + nb) (some grant) = some ⟨grant.addr,
      baseBytes base ++ (body ++ freshBytes grant (16 + body.length) (off.toNat + nb.toNat))⟩ := by
    rw [memConsume_grow _ _ _ (by rw [total_toNat fits]; omega), total_toNat fits, oldLength,
      ← List.append_assoc, ← holds.bytes]
  have length := freshBytes_length grant (16 + body.length) (off.toNat + nb.toNat)
  generalize freshBytes grant (16 + body.length) (off.toNat + nb.toNat) = more at granted length ⊢
  have recorded := recordCapacity_write (p := ⟨grant.addr, baseBytes base ++ (body ++ more)⟩) rfl nb
    (UInt64.le_iff_toNat_le.mpr (by omega))
  have intact : Intact off ⟨grant.addr, baseBytes ⟨nb, base.blen⟩ ++ (body ++ more)⟩ ⟨nb, base.blen⟩
    (body ++ more) :=
    ⟨rfl, by rw [List.length_append]; dsimp only; omega, by dsimp only; omega⟩
  refine ⟨⟨some (grant.addr + off.toNat),
    some ⟨grant.addr, baseBytes ⟨nb, base.blen⟩ ++ (body ++ more)⟩,
    [.consume (some old.addr) (off + nb) alignofBase]⟩, _, ?_, rfl, rfl, intact, Nat.le_refl _,
    holds.sizeInBytes.symm, ?_, ?_⟩
  · simp only [nuDcaReserveBytes, base_read holds.bytes, if_pos small, granted, recorded,
      Option.bind_eq_bind, Option.bind_some]
  · rw [intact.dataBytes header, holds.dataBytes header, List.drop_append_of_le_length (by omega),
      List.take_append_of_le_length (by rw [List.length_drop]; dsimp only; omega)]
  · rw [intact.grantedBytes header, holds.grantedBytes header,
      List.drop_append_of_le_length (by omega)]
    exact List.prefix_append _ _

/-- With no wrap in `off + nb` the call either succeeds or leaves the array as it was. -/
theorem reserveBytes_spec (off nb : UInt64) (pp : Option Block) (reply : Option Grant)
    (header : 16 ≤ off.toNat) (intact : IntactArray off pp)
    (fits : Grows pp nb.toNat → reply.isSome → off.toNat + nb.toNat ≤ SIZE_MAX) :
    ∃ out, nuDcaReserveBytes pp off nb reply = some out ∧
      ((out.ret = none ∧ out.pp = pp) ∨ ∃ p base body, Reserved off nb pp out p base body) := by
  cases pp with
  | none =>
    cases reply with
    | none => exact ⟨_, rfl, Or.inl ⟨rfl, rfl⟩⟩
    | some grant =>
      obtain ⟨out, p, run, reserved⟩ :=
        reserveBytes_first off nb grant header (fits (Or.inl rfl) rfl)
      exact ⟨out, run, Or.inr ⟨p, _, _, reserved⟩⟩
  | some old =>
    obtain ⟨base, body, holds⟩ := intact old rfl
    by_cases small : base.bcap < nb
    · -- the failed request leaves the old block, which is still in `*pp`
      cases reply with
      | none =>
        refine ⟨⟨none, some old, [.consume (some old.addr) (off + nb) alignofBase]⟩, ?_,
          Or.inl ⟨rfl, rfl⟩⟩
        simp only [nuDcaReserveBytes, base_read holds.bytes, if_pos small, Option.bind_eq_bind,
          Option.bind_some, memConsume, Option.map_none]
      | some grant =>
        have grows : Grows (some old) nb.toNat :=
          Or.inr (by rw [holds.capacityInBytes]; exact UInt64.lt_iff_toNat_lt.mp small)
        obtain ⟨out, p, run, reserved⟩ :=
          reserveBytes_moved off nb grant header old base body holds small (fits grows rfl)
        exact ⟨out, run, Or.inr ⟨p, _, _, reserved⟩⟩
    · refine ⟨⟨some (old.addr + off.toNat), some old, []⟩, ?_,
        Or.inr ⟨old, base, body, rfl, rfl, holds, ?_, holds.sizeInBytes.symm, rfl,
          List.prefix_refl _⟩⟩
      · simp only [nuDcaReserveBytes, base_read holds.bytes, if_neg small, Option.bind_eq_bind,
          Option.bind_some]
      · exact UInt64.le_iff_toNat_le.mp (UInt64.not_lt.mp small)

/-! ## `nu_dca_consume_bytes` -/

/-- What a successful `nu_dca_consume_bytes` leaves: `nb` bytes more behind the old ones. -/
structure Consumed (off nb : UInt64) (before : Option Block) (out : Outcome) (p : Block)
    (base : DcaBase) (body : List UInt8) : Prop where
  ret : out.ret = some (p.addr + off.toNat + (nuDcaSizeInBytes before).toNat)
  pp : out.pp = some p
  intact : Intact off p base body
  size : base.blen.toNat = (nuDcaSizeInBytes before).toNat + nb.toNat
  appended : ∃ fresh, fresh.length = nb.toNat ∧
    dataBytes off (some p) = dataBytes off before ++ fresh
  kept : grantedBytes off before <+: grantedBytes off (some p)

theorem dataBytes_length {off : UInt64} {p : Block} {base : DcaBase} {body : List UInt8}
    (intact : Intact off p base body) (header : 16 ≤ off.toNat) :
    (dataBytes off (some p)).length = base.blen.toNat := by
  have full := intact.full
  have ordered := intact.ordered
  rw [intact.dataBytes header, List.length_take, List.length_drop]
  omega

/-- Raising `blen` within the capacity grants the bytes behind the used ones. -/
theorem setLength_consumed {off nb : UInt64} {before : Option Block} {p : Block} {base : DcaBase}
    {body : List UInt8} (header : 16 ≤ off.toNat) (intact : Intact off p base body)
    (sameSize : base.blen = nuDcaSizeInBytes before)
    (sameData : dataBytes off (some p) = dataBytes off before)
    (kept : grantedBytes off before <+: grantedBytes off (some p))
    (fits : base.blen.toNat + nb.toNat ≤ base.bcap.toNat) (calls : List MemCall) :
    ∃ q, p.setBase ⟨base.bcap, base.blen + nb⟩ = some q ∧
      Consumed off nb before ⟨some (p.addr + off.toNat + base.blen.toNat), some q, calls⟩ q
        ⟨base.bcap, base.blen + nb⟩ body := by
  have full := intact.full
  have sum : (base.blen + nb).toNat = base.blen.toNat + nb.toNat := by
    rw [UInt64.toNat_add, Nat.mod_eq_of_lt (by have := base.bcap.toNat_lt; omega)]
  have longer : Intact off ⟨p.addr, baseBytes ⟨base.bcap, base.blen + nb⟩ ++ body⟩
    ⟨base.bcap, base.blen + nb⟩ body :=
    ⟨rfl, full, by dsimp only; omega⟩
  refine ⟨_, setBase_write intact.bytes _, by rw [sameSize], rfl, longer,
    by rw [← sameSize]; exact sum, ?_, ?_⟩
  · refine ⟨((body.drop (off.toNat - 16)).drop base.blen.toNat).take nb.toNat, ?_, ?_⟩
    · simp only [List.length_take, List.length_drop]; omega
    · rw [← sameData, longer.dataBytes header, intact.dataBytes header, sum, List.take_add]
  · rw [longer.grantedBytes header, ← intact.grantedBytes header]
    exact kept

/-- Reserving also covers the case that the capacity is enough already. -/
theorem consumeBytes_eq (off nb : UInt64) (pp : Option Block) (reply : Option Grant)
    (intact : IntactArray off pp) (fits : (nuDcaSizeInBytes pp).toNat + nb.toNat ≤ SIZE_MAX) :
    nuDcaConsumeBytes pp off nb reply =
      (nuDcaReserveBytes pp off (nuDcaSizeInBytes pp + nb) reply).bind fun out =>
        recordLength out (nuDcaSizeInBytes pp) nb := by
  obtain ⟨base, read, size, -⟩ := baseOrZero_read intact
  have noWrap : ¬ ¬ base.blen + nb ≥ base.blen := by
    rw [not_not, ge_iff_le, UInt64.le_iff_toNat_le, size, total_toNat fits]
    exact Nat.le_add_right _ _
  rw [← size]
  -- the comparison that `nu_dca_consume_bytes` makes first is made again inside the reservation
  cases pp with
  | none =>
    simp only [nuDcaConsumeBytes, read, Option.bind_eq_bind, Option.bind_some, if_neg noWrap]
  | some p =>
    simp only [nuDcaConsumeBytes, read, Option.bind_eq_bind, Option.bind_some, if_neg noWrap]
    split
    · rfl
    next enough =>
      simp only [nuDcaReserveBytes, show p.base = some base from read, Option.bind_eq_bind,
        Option.bind_some, if_neg enough]

theorem consumeBytes_wrapped (off nb : UInt64) (pp : Option Block) (reply : Option Grant)
    (intact : IntactArray off pp) (wraps : SIZE_MAX < (nuDcaSizeInBytes pp).toNat + nb.toNat) :
    nuDcaConsumeBytes pp off nb reply = some ⟨none, pp, []⟩ := by
  obtain ⟨base, read, size, -⟩ := baseOrZero_read intact
  have less : ¬ base.blen + nb ≥ base.blen := by
    have := nb.toNat_lt
    have := base.blen.toNat_lt
    simp only [SIZE_MAX, ← size] at wraps
    rw [ge_iff_le, UInt64.le_iff_toNat_le, UInt64.toNat_add]
    omega
  simp only [nuDcaConsumeBytes, read, Option.bind_eq_bind, Option.bind_some, if_pos less]

theorem consumeBytes_spec (off nb : UInt64) (pp : Option Block) (reply : Option Grant)
    (header : 16 ≤ off.toNat) (intact : IntactArray off pp)
    (fits : (nuDcaSizeInBytes pp).toNat + nb.toNat ≤ SIZE_MAX →
      Grows pp ((nuDcaSizeInBytes pp).toNat + nb.toNat) → reply.isSome →
      off.toNat + ((nuDcaSizeInBytes pp).toNat + nb.toNat) ≤ SIZE_MAX) :
    ∃ out, nuDcaConsumeBytes pp off nb reply = some out ∧
      ((out.ret = none ∧ out.pp = pp) ∨ ∃ p base body, Consumed off nb pp out p base body) := by
  by_cases checked : (nuDcaSizeInBytes pp).toNat + nb.toNat ≤ SIZE_MAX
  · have sum := total_toNat checked
    obtain ⟨out, run, result⟩ :=
      reserveBytes_spec off (nuDcaSizeInBytes pp + nb) pp reply header intact
      (by rw [sum]; exact fits checked)
    rw [consumeBytes_eq off nb pp reply intact checked, run, Option.bind_some]
    obtain ⟨null, same⟩ | ⟨p, base, body, reserved⟩ := result
    · exact ⟨out, by simp only [recordLength, null], Or.inl ⟨null, same⟩⟩
    · have enough := reserved.enough
      rw [sum, ← reserved.sameSize] at enough
      obtain ⟨q, written, consumed⟩ :=
        setLength_consumed header reserved.intact reserved.sameSize reserved.sameData reserved.kept
          enough out.calls
      refine ⟨_, ?_, Or.inr ⟨q, _, body, consumed⟩⟩
      simp only [recordLength, reserved.ret, reserved.pp, base_read reserved.intact.bytes,
        Option.bind_eq_bind, Option.bind_some, ← reserved.sameSize, written]
  · exact ⟨_, consumeBytes_wrapped off nb pp reply intact (Nat.lt_of_not_le checked),
      Or.inl ⟨rfl, rfl⟩⟩

/-! ## Single calls -/

/-- The capacity in bytes, without wrapping, that a call needs. -/
def requested (es : UInt64) (pp : Option Block) : DcaOp → Nat
  | .reserve nelems => nelems.toNat * es.toNat
  | .extend nelems => ((nuDcaSize pp es).toNat + nelems.toNat) * es.toNat
  | .consume nelems => (nuDcaSizeInBytes pp).toNat + nelems.toNat * es.toNat
  | .clean => 0
  | .release => 0

/-- How many bytes the returned address may be used for. -/
def granted (es : UInt64) (pp : Option Block) : DcaOp → Nat
  | .reserve nelems => nelems.toNat * es.toNat
  | .extend nelems => ((nuDcaSize pp es).toNat + nelems.toNat) * es.toNat
  | .consume nelems => nelems.toNat * es.toNat
  | .clean => 0
  | .release => 0

/-- A call that passes the overflow checks, has to grow the array and gets memory for it
asks for a block whose size with the header is still a `size_t`. -/
def NoWrap (off es : UInt64) (pp : Option Block) (call : DcaOp × Option Grant) : Prop :=
  requested es pp call.1 ≤ SIZE_MAX → Grows pp (requested es pp call.1) → call.2.isSome →
    off.toNat + requested es pp call.1 ≤ SIZE_MAX

theorem product_toNat {nelems es : UInt64} (checked : nelems.toNat * es.toNat ≤ SIZE_MAX) :
    (nelems * es).toNat = nelems.toNat * es.toNat := by
  rw [UInt64.toNat_mul, Nat.mod_eq_of_lt (by simp only [SIZE_MAX] at checked; omega)]

theorem mboxReserve_spec (off es nelems : UInt64) (pp : Option Block) (reply : Option Grant)
    (header : 16 ≤ off.toNat) (intact : IntactArray off pp)
    (fits : NoWrap off es pp (.reserve nelems, reply)) :
    ∃ out, nuMboxDcaReserve pp off es nelems reply = some out ∧ ((out.ret = none ∧ out.pp = pp) ∨
      ∃ nb p base body, nb.toNat = nelems.toNat * es.toNat ∧
        Reserved off nb pp out p base body) := by
  by_cases checked : nelems.toNat * es.toNat ≤ SIZE_MAX
  · have product := product_toNat checked
    obtain ⟨out, run, result⟩ := reserveBytes_spec off (nelems * es) pp reply header intact
      (by rw [product]; exact fits checked)
    refine ⟨out, by rw [nuMboxDcaReserve, ckdMul, if_pos checked]; exact run, ?_⟩
    exact result.imp id fun ⟨p, base, body, reserved⟩ => ⟨_, p, base, body, product, reserved⟩
  · exact ⟨⟨none, pp, []⟩, by rw [nuMboxDcaReserve, ckdMul, if_neg checked], Or.inl ⟨rfl, rfl⟩⟩

/-- `nu_mbox_dca_extend` is `nu_mbox_dca_reserve` for the new length. -/
theorem mboxExtend_eq (off es nelems : UInt64) (pp : Option Block) (reply : Option Grant)
    (positive : 0 < es.toNat) (intact : IntactArray off pp) :
    nuMboxDcaExtend pp off es nelems reply =
      if (nuDcaSize pp es).toNat + nelems.toNat ≤ SIZE_MAX then
        nuMboxDcaReserve pp off es (nuDcaSize pp es + nelems) reply
      else some ⟨none, pp, []⟩ := by
  obtain ⟨base, read, size, -⟩ := baseOrZero_read intact
  have nonzero : ¬ ¬ es > 0 := not_not.mpr (UInt64.lt_iff_toNat_lt.mpr positive)
  have count : base.blen / es = nuDcaSize pp es := by rw [nuDcaSize, size]
  rw [nuMboxDcaExtend, if_neg nonzero, read, Option.bind_eq_bind, Option.bind_some, ckdAdd, count]
  split_ifs <;> rfl

theorem mboxExtend_spec (off es nelems : UInt64) (pp : Option Block) (reply : Option Grant)
    (header : 16 ≤ off.toNat) (positive : 0 < es.toNat) (intact : IntactArray off pp)
    (fits : NoWrap off es pp (.extend nelems, reply)) :
    ∃ out, nuMboxDcaExtend pp off es nelems reply = some out ∧ ((out.ret = none ∧ out.pp = pp) ∨
      ∃ nb p base body, nb.toNat = ((nuDcaSize pp es).toNat + nelems.toNat) * es.toNat ∧
        Reserved off nb pp out p base body) := by
  rw [mboxExtend_eq off es nelems pp reply positive intact]
  by_cases checked : (nuDcaSize pp es).toNat + nelems.toNat ≤ SIZE_MAX
  · have sum := total_toNat checked
    obtain ⟨out, run, result⟩ :=
      mboxReserve_spec off es (nuDcaSize pp es + nelems) pp reply header intact
      (by simpa only [NoWrap, requested, sum] using fits)
    rw [sum] at result
    exact ⟨out, by rw [if_pos checked, run], result⟩
  · exact ⟨⟨none, pp, []⟩, by rw [if_neg checked], Or.inl ⟨rfl, rfl⟩⟩

theorem mboxConsume_spec (off es nelems : UInt64) (pp : Option Block) (reply : Option Grant)
    (header : 16 ≤ off.toNat) (intact : IntactArray off pp)
    (fits : NoWrap off es pp (.consume nelems, reply)) :
    ∃ out, nuMboxDcaConsume pp off es nelems reply = some out ∧ ((out.ret = none ∧ out.pp = pp) ∨
      ∃ nb p base body, nb.toNat = nelems.toNat * es.toNat ∧
        Consumed off nb pp out p base body) := by
  by_cases checked : nelems.toNat * es.toNat ≤ SIZE_MAX
  · have product := product_toNat checked
    obtain ⟨out, run, result⟩ := consumeBytes_spec off (nelems * es) pp reply header intact
      (by rw [product]; exact fun passes grows granted => fits passes grows granted)
    refine ⟨out, by rw [nuMboxDcaConsume, ckdMul, if_pos checked]; exact run, ?_⟩
    exact result.imp id fun ⟨p, base, body, consumed⟩ => ⟨_, p, base, body, product, consumed⟩
  · exact ⟨⟨none, pp, []⟩, by rw [nuMboxDcaConsume, ckdMul, if_neg checked], Or.inl ⟨rfl, rfl⟩⟩

theorem mboxClean_spec (off : UInt64) (pp : Option Block) (header : 16 ≤ off.toNat)
    (intact : IntactArray off pp) :
    ∃ after, nuMboxDcaClean pp = some ⟨none, after, []⟩ ∧ IntactArray off after ∧
      nuDcaSizeInBytes after = 0 ∧
      nuDcaCapacityInBytes after = nuDcaCapacityInBytes pp ∧ dataBytes off after = [] ∧
      grantedBytes off after = grantedBytes off pp := by
  cases pp with
  | none => exact ⟨none, rfl, intact, rfl, rfl, rfl, rfl⟩
  | some p =>
    obtain ⟨base, body, holds⟩ := intact p rfl
    have cleaned : Intact off ⟨p.addr, baseBytes ⟨base.bcap, 0⟩ ++ body⟩ ⟨base.bcap, 0⟩ body :=
      ⟨rfl, holds.full, Nat.zero_le _⟩
    refine ⟨some ⟨p.addr, baseBytes ⟨base.bcap, 0⟩ ++ body⟩, ?_, cleaned.array,
      cleaned.sizeInBytes, ?_, ?_, ?_⟩
    · simp only [nuMboxDcaClean, base_read holds.bytes, setBase_write holds.bytes,
        Option.bind_eq_bind, Option.bind_some]
    · rw [cleaned.capacityInBytes, holds.capacityInBytes]
    · rw [cleaned.dataBytes header]; rfl
    · rw [cleaned.grantedBytes header, holds.grantedBytes header]

theorem mboxRelease_spec (off : UInt64) (pp : Option Block) (intact : IntactArray off pp) :
    ∃ calls, nuMboxDcaRelease pp off = some ⟨none, none, calls⟩ := by
  cases pp with
  | none => exact ⟨[], rfl⟩
  | some p =>
    obtain ⟨base, body, holds⟩ := intact p rfl
    refine ⟨[.release p.addr (off + base.bcap) alignofBase], ?_⟩
    simp only [nuMboxDcaRelease, nuDcaReleaseAll, base_read holds.bytes, Option.bind_eq_bind,
      Option.bind_some]

/-! ## Runs -/

/-- `blen <= bcap`, and header and capacity lie inside the block. -/
def Bounded (off : UInt64) (pp : Option Block) : Prop :=
  ∀ p, pp = some p → ∃ base, p.base = some base ∧ base.blen ≤ base.bcap ∧
    off.toNat + base.bcap.toNat ≤ p.bytes.length

/-- After the call the array is within bounds, and so is everything the call grants. -/
structure SafeStep (off es : UInt64) (pp : Option Block) (call : DcaOp × Option Grant)
    (out : Outcome) : Prop where
  bounded : Bounded off out.pp
  inside : ∀ addr, out.ret = some addr → ∃ p, out.pp = some p ∧ p.addr ≤ addr ∧
    addr + granted es pp call.1 ≤ p.addr + p.bytes.length

theorem Intact.length {off : UInt64} {p : Block} {base : DcaBase} {body : List UInt8}
    (intact : Intact off p base body) : p.bytes.length = off.toNat + base.bcap.toNat := by
  rw [intact.bytes, List.length_append, baseBytes_length, intact.full]

theorem IntactArray.bounded {off : UInt64} {pp : Option Block} (intact : IntactArray off pp) :
    Bounded off pp := by
  intro p allocated
  obtain ⟨base, body, holds⟩ := intact p allocated
  exact ⟨base, base_read holds.bytes, UInt64.le_iff_toNat_le.mpr holds.ordered, holds.length.ge⟩

theorem Reserved.safe {off es nb : UInt64} {pp : Option Block} {call : DcaOp × Option Grant}
    {out : Outcome} {p : Block} {base : DcaBase} {body : List UInt8}
    (reserved : Reserved off nb pp out p base body) (whole : granted es pp call.1 = nb.toNat) :
    SafeStep off es pp call out ∧ IntactArray off out.pp := by
  have intact : IntactArray off out.pp := by rw [reserved.pp]; exact reserved.intact.array
  refine ⟨⟨intact.bounded, fun addr returned => ⟨p, reserved.pp, ?_⟩⟩, intact⟩
  obtain rfl := Option.some.inj (reserved.ret.symm.trans returned)
  have enough := reserved.enough
  rw [whole, reserved.intact.length]
  omega

theorem Consumed.safe {off es nb : UInt64} {pp : Option Block} {call : DcaOp × Option Grant}
    {out : Outcome} {p : Block} {base : DcaBase} {body : List UInt8}
    (consumed : Consumed off nb pp out p base body) (whole : granted es pp call.1 = nb.toNat) :
    SafeStep off es pp call out ∧ IntactArray off out.pp := by
  have intact : IntactArray off out.pp := by rw [consumed.pp]; exact consumed.intact.array
  refine ⟨⟨intact.bounded, fun addr returned => ⟨p, consumed.pp, ?_⟩⟩, intact⟩
  obtain rfl := Option.some.inj (consumed.ret.symm.trans returned)
  have size := consumed.size
  have ordered := consumed.intact.ordered
  rw [whole, consumed.intact.length]
  omega

theorem safe_of_same {off es : UInt64} {pp : Option Block} {call : DcaOp × Option Grant}
    {out : Outcome} (intact : IntactArray off pp) (null : out.ret = none) (same : out.pp = pp) :
    SafeStep off es pp call out ∧ IntactArray off out.pp := by
  refine ⟨⟨by rw [same]; exact intact.bounded, fun addr returned => ?_⟩, by rw [same]; exact intact⟩
  rw [null] at returned
  cases returned

theorem dcaStep_safe (off es : UInt64) (header : 16 ≤ off.toNat) (positive : 0 < es.toNat)
    (pp : Option Block) (call : DcaOp × Option Grant) (intact : IntactArray off pp)
    (fits : NoWrap off es pp call) :
    ∃ out, dcaStep off es pp call = some out ∧ SafeStep off es pp call out ∧
      IntactArray off out.pp := by
  obtain ⟨op, reply⟩ := call
  cases op with
  | reserve nelems =>
    obtain ⟨out, run, ⟨null, same⟩ | ⟨nb, p, base, body, whole, reserved⟩⟩ :=
      mboxReserve_spec off es nelems pp reply header intact fits
    · exact ⟨out, run, safe_of_same intact null same⟩
    · exact ⟨out, run, reserved.safe whole.symm⟩
  | extend nelems =>
    obtain ⟨out, run, ⟨null, same⟩ | ⟨nb, p, base, body, whole, reserved⟩⟩ :=
      mboxExtend_spec off es nelems pp reply header positive intact fits
    · exact ⟨out, run, safe_of_same intact null same⟩
    · exact ⟨out, run, reserved.safe whole.symm⟩
  | consume nelems =>
    obtain ⟨out, run, ⟨null, same⟩ | ⟨nb, p, base, body, whole, consumed⟩⟩ :=
      mboxConsume_spec off es nelems pp reply header intact fits
    · exact ⟨out, run, safe_of_same intact null same⟩
    · exact ⟨out, run, consumed.safe whole.symm⟩
  | clean =>
    obtain ⟨after, run, kept, -⟩ := mboxClean_spec off pp header intact
    exact ⟨_, run, ⟨kept.bounded, fun _ returned => by cases returned⟩, kept⟩
  | release =>
    obtain ⟨calls, run⟩ := mboxRelease_spec off pp intact
    exact ⟨_, run, ⟨(intactArray_none off).bounded, fun _ returned => by cases returned⟩,
      intactArray_none off⟩

/-! ## Requests that wrap -/

/-- Whatever the size of the block that is granted, `nb` becomes its capacity. -/
theorem reserveBytes_granted (off nb : UInt64) (pp : Option Block) (grant : Grant) (out : Outcome)
    (intact : IntactArray off pp) (grows : Grows pp nb.toNat)
    (run : nuDcaReserveBytes pp off nb (some grant) = some out) :
    ∃ addr p base, out.ret = some addr ∧ out.pp = some p ∧ p.base = some base ∧ base.bcap = nb ∧
      p.bytes.length = (off + nb).toNat := by
  cases pp with
  | none =>
    obtain ⟨first, received, length, -⟩ := memConsume_length [] (off + nb) grant
    simp only [nuDcaReserveBytes, received] at run
    obtain ⟨zeroed, written, run⟩ := Option.bind_eq_some_iff.mp run
    obtain ⟨p, recorded, done⟩ := Option.bind_eq_some_iff.mp run
    obtain ⟨base, read, capacity, sameLength⟩ := recordCapacity_some recorded
    obtain rfl := Option.some.inj done
    exact ⟨_, p, base, rfl, rfl, read, capacity,
      by rw [sameLength, (setBase_some written).2.1, length]⟩
  | some old =>
    obtain ⟨oldBase, body, holds⟩ := intact old rfl
    -- the old block is reallocated, and its new size is the wrapped sum
    have small : oldBase.bcap < nb := by
      rw [UInt64.lt_iff_toNat_lt, ← holds.capacityInBytes]
      exact grows.resolve_left (by simp)
    obtain ⟨moved, received, length, -⟩ := memConsume_length old.bytes (off + nb) grant
    simp only [nuDcaReserveBytes, base_read holds.bytes, Option.bind_eq_bind, Option.bind_some,
      if_pos small, received] at run
    obtain ⟨p, recorded, done⟩ := Option.bind_eq_some_iff.mp run
    obtain ⟨base, read, capacity, sameLength⟩ := recordCapacity_some recorded
    obtain rfl := Option.some.inj done
    exact ⟨_, p, base, rfl, rfl, read, capacity, by rw [sameLength, length]⟩

/-- When `off + nb` wraps the block is smaller than the capacity recorded in it. -/
theorem reserveBytes_wrapped (off nb : UInt64) (pp : Option Block) (grant : Grant) (out : Outcome)
    (intact : IntactArray off pp) (grows : Grows pp nb.toNat)
    (wraps : SIZE_MAX < off.toNat + nb.toNat)
    (run : nuDcaReserveBytes pp off nb (some grant) = some out) :
    ∃ addr p base, out.ret = some addr ∧ out.pp = some p ∧ p.base = some base ∧ base.bcap = nb ∧
      p.bytes.length < off.toNat + nb.toNat := by
  have smaller : (off + nb).toNat < off.toNat + nb.toNat := by
    rw [UInt64.toNat_add]; simp only [SIZE_MAX] at wraps; omega
  obtain ⟨addr, p, base, ret, allocated, read, capacity, length⟩ :=
    reserveBytes_granted off nb pp grant out intact grows run
  exact ⟨addr, p, base, ret, allocated, read, capacity, length ▸ smaller⟩

theorem not_bounded {off : UInt64} {pp : Option Block} {p : Block} {base : DcaBase}
    (allocated : pp = some p) (read : p.base = some base)
    (small : p.bytes.length < off.toNat + base.bcap.toNat) : ¬ Bounded off pp := by
  intro bounded
  obtain ⟨same, readAgain, -, large⟩ := bounded p allocated
  obtain rfl := Option.some.inj (read.symm.trans readAgain)
  omega

theorem mboxReserve_wrapped (off es nelems : UInt64) (pp : Option Block) (grant : Grant)
    (out : Outcome) (intact : IntactArray off pp) (checked : nelems.toNat * es.toNat ≤ SIZE_MAX)
    (grows : Grows pp (nelems.toNat * es.toNat))
    (wraps : SIZE_MAX < off.toNat + nelems.toNat * es.toNat)
    (run : nuMboxDcaReserve pp off es nelems (some grant) = some out) : ¬ Bounded off out.pp := by
  have product := product_toNat checked
  rw [nuMboxDcaReserve, ckdMul, if_pos checked] at run
  obtain ⟨-, p, base, -, allocated, read, capacity, small⟩ :=
    reserveBytes_wrapped off (nelems * es) pp grant out intact
    (by rw [product]; exact grows) (by rw [product]; exact wraps) run
  exact not_bounded allocated read (by rw [capacity]; exact small)

theorem mboxConsume_wrapped (off es nelems : UInt64) (pp : Option Block) (grant : Grant)
    (out : Outcome) (intact : IntactArray off pp)
    (checked : (nuDcaSizeInBytes pp).toNat + nelems.toNat * es.toNat ≤ SIZE_MAX)
    (grows : Grows pp ((nuDcaSizeInBytes pp).toNat + nelems.toNat * es.toNat))
    (wraps : SIZE_MAX < off.toNat + ((nuDcaSizeInBytes pp).toNat + nelems.toNat * es.toNat))
    (run : nuMboxDcaConsume pp off es nelems (some grant) = some out) : ¬ Bounded off out.pp := by
  have product := product_toNat (Nat.le_trans (Nat.le_add_left _ _) checked)
  rw [nuMboxDcaConsume, ckdMul, if_pos (Nat.le_trans (Nat.le_add_left _ _) checked)] at run
  rw [← product] at checked grows wraps
  have sum := total_toNat checked
  dsimp only at run
  rw [consumeBytes_eq off _ pp _ intact checked] at run
  obtain ⟨middle, reserve, run⟩ := Option.bind_eq_some_iff.mp run
  obtain ⟨addr, p, base, returned, allocated, read, capacity, small⟩ :=
    reserveBytes_wrapped off _ pp grant middle intact
    (by rw [sum]; exact grows) (by rw [sum]; exact wraps) reserve
  simp only [recordLength, returned, allocated, read, Option.bind_eq_bind, Option.bind_some] at run
  obtain ⟨q, written, done⟩ := Option.bind_eq_some_iff.mp run
  obtain ⟨readAgain, length, -⟩ := setBase_some written
  obtain rfl := Option.some.inj done
  exact not_bounded rfl readAgain (by rw [length]; dsimp only; rw [capacity]; exact small)

theorem dcaStep_wrapped (off es : UInt64) (positive : 0 < es.toNat) (pp : Option Block)
    (call : DcaOp × Option Grant) (out : Outcome) (intact : IntactArray off pp)
    (run : dcaStep off es pp call = some out) (safe : SafeStep off es pp call out) :
    NoWrap off es pp call := by
  obtain ⟨op, reply⟩ := call
  intro checked grows received
  obtain ⟨grant, rfl⟩ := Option.isSome_iff_exists.mp received
  -- otherwise the block that the allocator gave is too small, so the call was not safe
  by_contra wraps
  have wraps := Nat.lt_of_not_le wraps
  cases op with
  | reserve nelems =>
    exact mboxReserve_wrapped off es nelems pp grant out intact checked grows wraps run safe.bounded
  | consume nelems =>
    exact mboxConsume_wrapped off es nelems pp grant out intact checked grows wraps run safe.bounded
  | extend nelems =>
    -- the product with the element size is no smaller than the new length, which passes its check,
    -- too
    have small : (nuDcaSize pp es).toNat + nelems.toNat ≤ SIZE_MAX :=
      Nat.le_trans (Nat.le_mul_of_pos_right _ positive) checked
    have sum := total_toNat small
    simp only [requested, ← sum] at checked grows wraps
    rw [dcaStep, mboxExtend_eq off es nelems pp _ positive intact, if_pos small] at run
    exact mboxReserve_wrapped off es _ pp grant out intact checked grows wraps run safe.bounded
  | clean =>
    have := off.toNat_lt
    simp only [requested, SIZE_MAX] at wraps
    omega
  | release =>
    have := off.toNat_lt
    simp only [requested, SIZE_MAX] at wraps
    omega

/-- A run of calls on an empty array stays within bounds if and only if no request that the
allocator serves wraps when the header offset is added. -/
theorem dca_bounds (off es : UInt64) (header : 16 ≤ off.toNat) (positive : 0 < es.toNat)
    (calls : List (DcaOp × Option Grant)) :
    AllSteps (dcaStep off es) Outcome.pp (SafeStep off es) none calls ↔
      Along (dcaStep off es) Outcome.pp (NoWrap off es) none calls :=
  along_iff_allSteps (dcaStep_safe off es header positive)
    (dcaStep_wrapped off es positive) none calls
    (intactArray_none off)

theorem dca_bounds_three :
    AllSteps (dcaStep 16 1) Outcome.pp (SafeStep 16 1)
      none [(.reserve 3, some ⟨4096, fun _ => 0⟩)] :=
  (dca_bounds 16 1 (by decide) (by decide) _).mpr ⟨fun _ _ _ => by decide, fun _ _ => trivial⟩

/-- Reserving `SIZE_MAX - 39` bytes behind an offset of 64 gets a block of 24 bytes; reserving
`SIZE_MAX` bytes of a `nu_buffer_t` gets one of 15 bytes, too small for the header. -/
theorem dca_bounds_fails :
    (∃ out, dcaStep 64 1 none (.reserve 0xFFFFFFFFFFFFFFD8, some ⟨4096, fun _ => 0⟩) = some out ∧
      out.pp.map (fun p => p.bytes.length) = some 24 ∧
        nuDcaCapacityInBytes out.pp = 0xFFFFFFFFFFFFFFD8) ∧
    ¬ AllSteps (dcaStep 64 1) Outcome.pp (SafeStep 64 1) none
      [(.reserve 0xFFFFFFFFFFFFFFD8, some ⟨4096, fun _ => 0⟩)] ∧
    dcaStep 16 1 none (.reserve 0xFFFFFFFFFFFFFFFF, some ⟨4096, fun _ => 0⟩) = none := by
  refine ⟨⟨_, rfl, by decide, by decide⟩, ?_, by decide⟩
  rintro ⟨out, run, safe, -⟩
  have fits := dcaStep_wrapped 64 1 (by decide) none _ out (intactArray_none 64) run safe
  exact absurd (fits (by decide) (Or.inl rfl) rfl) (by decide)

end NuLab.Dca
