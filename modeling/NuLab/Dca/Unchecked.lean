import NuLab.Dca.Bounds

/-! # The build without `stdckdint.h`

Where the header is missing the calls compute their sizes without checks.  Reserving and
consuming then differ only where a product is not a `size_t`.  Extending differs for
another reason: that build multiplies the two counts which the other one adds.
-/

namespace NuLab.Dca

/-! ## The other arithmetic -/

def nuMboxDcaReserveUnchecked (pp : Option Block) (off es nelems : UInt64) (reply : Option Grant) :
    Option Outcome :=
  nuDcaReserveBytes pp off (nelems * es) reply

def nuMboxDcaExtendUnchecked (pp : Option Block) (off es nelems : UInt64) (reply : Option Grant) :
    Option Outcome :=
  if ¬ es > 0 then some ⟨none, pp, []⟩
  else do
    let base ← baseOrZero pp
    -- `ckd_add` in the other build
    let newlen := base.blen / es * nelems
    nuMboxDcaReserveUnchecked pp off es newlen reply

def nuMboxDcaConsumeUnchecked (pp : Option Block) (off es nelems : UInt64) (reply : Option Grant) :
    Option Outcome :=
  nuDcaConsumeBytes pp off (nelems * es) reply

/-- `dcaStep` in that build -/
def dcaStepUnchecked (off es : UInt64) (pp : Option Block) : DcaOp × Option Grant → Option Outcome
  | (.reserve nelems, reply) => nuMboxDcaReserveUnchecked pp off es nelems reply
  | (.extend nelems, reply) => nuMboxDcaExtendUnchecked pp off es nelems reply
  | (.consume nelems, reply) => nuMboxDcaConsumeUnchecked pp off es nelems reply
  | (.clean, _) => nuMboxDcaClean pp
  | (.release, _) => nuMboxDcaRelease pp off

/-! ## Calls on a memory -/

/-- A call on a memory that answers requests: the request does not depend on the answer, so it is
the one that is made when the answer is NULL. -/
def onMemory (mem : MemCall → Option Grant) (call : Option Grant → Option Outcome) :
    Option Outcome :=
  match (call none).map Outcome.calls with
  | some [request] => call (mem request)
  | _ => call none

/-- What a caller sees: the result, the size and the capacity. -/
def visible (out : Outcome) : Option Nat × UInt64 × UInt64 :=
  (out.ret, nuDcaSizeInBytes out.pp, nuDcaCapacityInBytes out.pp)

theorem onMemory_reply (mem : MemCall → Option Grant) (call : Option Grant → Option Outcome) :
    ∃ reply, onMemory mem call = call reply := by
  unfold onMemory
  split
  · exact ⟨_, rfl⟩
  · exact ⟨none, rfl⟩

/-! ## Agreement -/

/-- The memory refuses what `nu_dca_reserve_bytes` asks for `nb` bytes. -/
def Refused (mem : MemCall → Option Grant) (off : UInt64) (pp : Option Block) (nb : UInt64) :
    Prop :=
  mem (.consume (pp.map Block.addr) (off + nb) alignofBase) = none

/-- The builds leave and return the same, and an array that has been extended has room
for the new elements. -/
structure BuildsAgree (mem : MemCall → Option Grant) (off es : UInt64) (pp : Option Block)
    (op : DcaOp) : Prop where
  same : (onMemory mem fun reply => dcaStep off es pp (op, reply)).map visible =
    (onMemory mem fun reply => dcaStepUnchecked off es pp (op, reply)).map visible
  room : ∀ nelems, op = .extend nelems → ∀ step ∈ [dcaStep, dcaStepUnchecked], ∀ out,
    (onMemory mem fun reply => step off es pp (op, reply)) = some out → out.ret.isSome →
      (nuDcaSize out.pp es).toNat + nelems.toNat ≤ (nuDcaCapacity out.pp es).toNat

/-- Whether sum and product come to the same: they are so many bytes, or the capacity is enough for
both, or the memory refuses both. -/
def SumLikeProduct (mem : MemCall → Option Grant) (off es : UInt64) (pp : Option Block)
    (nelems : UInt64) : Prop :=
  let sum := (nuDcaSize pp es + nelems) * es
  let product := nuDcaSize pp es * nelems * es
  sum = product ∨ (¬ Grows pp sum.toNat ∧ ¬ Grows pp product.toNat) ∨
    (Grows pp sum.toNat ∧ Refused mem off pp sum ∧ Grows pp product.toNat ∧
      Refused mem off pp product)

/-- Where the builds agree: extending only where sum and product come to the same. -/
def AgreesWhen (mem : MemCall → Option Grant) (off es : UInt64) (pp : Option Block) : DcaOp → Prop
  | .extend nelems => SumLikeProduct mem off es pp nelems
  | _ => True

section

variable {mem : MemCall → Option Grant} {off nb : UInt64} {pp : Option Block}

/-- What a request for `nb` bytes comes to. -/
inductive Answered (mem : MemCall → Option Grant) (off nb : UInt64) (pp : Option Block) :
    Option Outcome → Prop where
  | enough {p : Block} (allocated : pp = some p) (fits : ¬ Grows pp nb.toNat) :
      Answered mem off nb pp (some ⟨some (p.addr + off.toNat), pp, []⟩)
  | refused (grows : Grows pp nb.toNat) (null : Refused mem off pp nb) {calls : List MemCall} :
      Answered mem off nb pp (some ⟨none, pp, calls⟩)
  | granted (grows : Grows pp nb.toNat) (given : ¬ Refused mem off pp nb) {out : Outcome}
      (success : out.ret.isSome)
      (capacity : nuDcaCapacityInBytes out.pp = nb) : Answered mem off nb pp (some out)
  | broken (grows : Grows pp nb.toNat) (given : ¬ Refused mem off pp nb) :
      Answered mem off nb pp none

theorem reserveBytes_enough (intact : IntactArray off pp) (enough : ¬ Grows pp nb.toNat)
    (reply : Option Grant) :
    ∃ p, pp = some p ∧ nuDcaReserveBytes pp off nb reply =
      some ⟨some (p.addr + off.toNat), pp, []⟩ := by
  cases pp with
  | none => exact absurd (Or.inl rfl) enough
  | some p =>
    obtain ⟨base, body, holds⟩ := intact p rfl
    have large : ¬ base.bcap < nb := by
      intro small
      refine enough (Or.inr ?_)
      rw [holds.capacityInBytes]
      exact UInt64.lt_iff_toNat_lt.mp small
    refine ⟨p, rfl, ?_⟩
    simp only [nuDcaReserveBytes, base_read holds.bytes, if_neg large, Option.bind_eq_bind,
      Option.bind_some]

theorem reserveBytes_null (intact : IntactArray off pp) (grows : Grows pp nb.toNat) :
    nuDcaReserveBytes pp off nb none =
      some ⟨none, pp, [.consume (pp.map Block.addr) (off + nb) alignofBase]⟩ := by
  cases pp with
  | none => rfl
  | some p =>
    obtain ⟨base, body, holds⟩ := intact p rfl
    have small : base.bcap < nb := by
      rw [UInt64.lt_iff_toNat_lt, ← holds.capacityInBytes]
      exact grows.resolve_left (by simp)
    simp only [nuDcaReserveBytes, base_read holds.bytes, if_pos small, memConsume,
      Option.bind_eq_bind, Option.bind_some, Option.map_none, Option.map_some]

theorem reserveBytes_request (mem : MemCall → Option Grant) (intact : IntactArray off pp)
    (nb : UInt64) : Answered mem off nb pp (onMemory mem (nuDcaReserveBytes pp off nb)) := by
  by_cases grows : Grows pp nb.toNat
  · have asked := reserveBytes_null intact grows
    have run : onMemory mem (nuDcaReserveBytes pp off nb) = nuDcaReserveBytes pp off nb
        (mem (.consume (pp.map Block.addr) (off + nb) alignofBase)) := by
      simp only [onMemory, asked, Option.map_some]
    rw [run]
    cases answer : mem (.consume (pp.map Block.addr) (off + nb) alignofBase) with
    | none =>
      rw [asked]
      exact .refused grows answer
    | some grant =>
      have given : ¬ Refused mem off pp nb := by simp [Refused, answer]
      cases outcome : nuDcaReserveBytes pp off nb (some grant) with
      | none => exact .broken grows given
      | some out =>
        obtain ⟨addr, p, base, ret, allocated, read, capacity, -⟩ :=
          reserveBytes_granted off nb pp grant out intact grows outcome
        refine .granted grows given (by rw [ret]; rfl) ?_
        simp [nuDcaCapacityInBytes, allocated, read, capacity]
  · obtain ⟨p, allocated, run⟩ := reserveBytes_enough intact grows none
    have same : onMemory mem (nuDcaReserveBytes pp off nb) = nuDcaReserveBytes pp off nb none := by
      simp only [onMemory, run, Option.map_some]
    rw [same, run]
    exact .enough allocated grows

/-- Requests for different numbers of bytes look alike only where neither or both are
refused without a trace. -/
theorem reserveBytes_agree_iff (intact : IntactArray off pp) {sum product : UInt64}
    (defined : (onMemory mem (nuDcaReserveBytes pp off sum)).isSome) :
    (onMemory mem (nuDcaReserveBytes pp off sum)).map visible =
        (onMemory mem (nuDcaReserveBytes pp off product)).map visible ↔
      sum = product ∨ (¬ Grows pp sum.toNat ∧ ¬ Grows pp product.toNat) ∨
        (Grows pp sum.toNat ∧ Refused mem off pp sum ∧ Grows pp product.toNat ∧
          Refused mem off pp product) := by
  by_cases equal : sum = product
  · simp [equal]
  have first := reserveBytes_request mem intact sum
  have second := reserveBytes_request mem intact product
  generalize onMemory mem (nuDcaReserveBytes pp off sum) = out at *
  generalize onMemory mem (nuDcaReserveBytes pp off product) = out' at *
  -- an array that has to grow has another capacity than the one it grows to
  have capacities : ∀ {p : Block} {nb : UInt64}, pp = some p → Grows pp nb.toNat →
      nuDcaCapacityInBytes pp ≠ nb := by
    rintro p nb allocated (none | small) same
    · rw [allocated] at none
      cases none
    · rw [same] at small
      exact Nat.lt_irrefl _ small
  cases first with
  | enough allocated fits =>
    cases second with
    | enough allocated' fits' =>
      cases allocated.symm.trans allocated'
      simp [fits, fits']
    | refused grows' => simp [visible, fits, grows', equal]
    | granted grows' given' success' capacity' =>
      have different := capacities allocated grows'
      simp [visible, fits, grows', equal, capacity', different]
    | broken grows' => simp [fits, grows', equal]
  | refused grows null =>
    cases second with
    | enough allocated' fits' => simp [visible, fits', grows, equal]
    | refused grows' null' => simp [visible, grows, grows', null, null']
    | granted grows' given' success' =>
      obtain ⟨addr, ret⟩ := Option.isSome_iff_exists.mp success'
      simp [visible, given', grows, equal, ret]
    | broken grows' given' => simp [given', grows, equal]
  | granted grows given success capacity =>
    -- two requests that are served leave the capacities that they are for
    obtain ⟨addr, ret⟩ := Option.isSome_iff_exists.mp success
    cases second with
    | enough allocated' fits' =>
      have different := capacities allocated' grows
      simp [visible, fits', grows, equal, capacity, different.symm]
    | refused grows' null' => simp [visible, given, grows, equal, ret]
    | granted grows' given' success' capacity' =>
      simp [visible, given, grows, equal, capacity, capacity']
    | broken grows' => simp [given, grows, equal]
  | broken grows given => simp at defined

/-! ## The calls -/

theorem dcaStep_extend {es nelems : UInt64} (positive : 0 < es.toNat) (intact : IntactArray off pp)
    (fits : ((nuDcaSize pp es).toNat + nelems.toNat) * es.toNat ≤ SIZE_MAX) (reply : Option Grant) :
    dcaStep off es pp (.extend nelems, reply) =
      nuDcaReserveBytes pp off ((nuDcaSize pp es + nelems) * es) reply := by
  have small : (nuDcaSize pp es).toNat + nelems.toNat ≤ SIZE_MAX :=
    Nat.le_trans (Nat.le_mul_of_pos_right _ positive) fits
  rw [← total_toNat small] at fits
  rw [dcaStep, mboxExtend_eq off es nelems pp reply positive intact, if_pos small, nuMboxDcaReserve,
    ckdMul, if_pos fits]

theorem dcaStepUnchecked_extend {es nelems : UInt64} (positive : 0 < es.toNat)
    (intact : IntactArray off pp) (reply : Option Grant) :
    dcaStepUnchecked off es pp (.extend nelems, reply) =
      nuDcaReserveBytes pp off (nuDcaSize pp es * nelems * es) reply := by
  obtain ⟨base, read, size, -⟩ := baseOrZero_read intact
  have nonzero : ¬ ¬ es > 0 := not_not.mpr (UInt64.lt_iff_toNat_lt.mpr positive)
  have count : base.blen / es = nuDcaSize pp es := by rw [nuDcaSize, size]
  rw [dcaStepUnchecked, nuMboxDcaExtendUnchecked, if_neg nonzero, read, Option.bind_eq_bind,
    Option.bind_some, count, nuMboxDcaReserveUnchecked]

/-- A product that fits is computed in both builds. -/
theorem dcaStepUnchecked_eq {es : UInt64} {op : DcaOp} (other : ∀ nelems, op ≠ .extend nelems)
    (fits : requested es pp op ≤ SIZE_MAX) (reply : Option Grant) :
    dcaStepUnchecked off es pp (op, reply) = dcaStep off es pp (op, reply) := by
  cases op with
  | reserve nelems =>
    have checked : nelems.toNat * es.toNat ≤ SIZE_MAX := fits
    rw [dcaStep, nuMboxDcaReserve, ckdMul, if_pos checked]
    rfl
  | extend nelems => exact absurd rfl (other nelems)
  | consume nelems =>
    have checked : nelems.toNat * es.toNat ≤ SIZE_MAX := Nat.le_trans (Nat.le_add_left _ _) fits
    rw [dcaStep, nuMboxDcaConsume, ckdMul, if_pos checked]
    rfl
  | clean => rfl
  | release => rfl

/-- In the build with checks, an array that has been extended has room for the new elements. -/
theorem extend_room {es nelems : UInt64} (header : 16 ≤ off.toNat) (positive : 0 < es.toNat)
    (intact : IntactArray off pp) (fits : off.toNat + requested es pp (.extend nelems) ≤ SIZE_MAX)
    {reply : Option Grant} {out : Outcome}
    (run : dcaStep off es pp (.extend nelems, reply) = some out) (success : out.ret.isSome) :
    (nuDcaSize out.pp es).toNat + nelems.toNat ≤ (nuDcaCapacity out.pp es).toNat := by
  obtain ⟨out', run', result⟩ :=
    mboxExtend_spec off es nelems pp reply header positive intact (fun _ _ _ => fits)
  cases run.symm.trans run'
  rcases result with ⟨null, -⟩ | ⟨nb, p, base, body, bytes, reserved⟩
  · simp [null] at success
  · have enough := reserved.enough
    rw [reserved.pp, nuDcaSize, nuDcaCapacity, reserved.intact.sizeInBytes,
      reserved.intact.capacityInBytes, reserved.sameSize, UInt64.toNat_div, UInt64.toNat_div,
      Nat.le_div_iff_mul_le positive]
    rw [bytes, nuDcaSize, UInt64.toNat_div] at enough
    exact enough

theorem dcaStep_defined {es : UInt64} {op : DcaOp} (mem : MemCall → Option Grant)
    (header : 16 ≤ off.toNat) (positive : 0 < es.toNat) (intact : IntactArray off pp)
    (fits : off.toNat + requested es pp op ≤ SIZE_MAX) :
    ∃ reply out, (onMemory mem fun reply => dcaStep off es pp (op, reply)) = some out ∧
      dcaStep off es pp (op, reply) = some out := by
  obtain ⟨reply, answered⟩ := onMemory_reply mem fun reply => dcaStep off es pp (op, reply)
  obtain ⟨out, run, -⟩ :=
    dcaStep_safe off es header positive pp (op, reply) intact fun _ _ _ => fits
  exact ⟨reply, out, answered.trans run, run⟩

theorem extend_same_iff {es nelems : UInt64} (header : 16 ≤ off.toNat) (positive : 0 < es.toNat)
    (intact : IntactArray off pp) (fits : off.toNat + requested es pp (.extend nelems) ≤ SIZE_MAX) :
    (onMemory mem fun reply => dcaStep off es pp (.extend nelems, reply)).map visible =
        (onMemory mem fun reply => dcaStepUnchecked off es pp (.extend nelems, reply)).map visible ↔
      SumLikeProduct mem off es pp nelems := by
  have small : ((nuDcaSize pp es).toNat + nelems.toNat) * es.toNat ≤ SIZE_MAX :=
    Nat.le_trans (Nat.le_add_left _ _) fits
  obtain ⟨reply, out, defined, -⟩ := dcaStep_defined mem header positive intact fits
  have sum : (fun reply => dcaStep off es pp (.extend nelems, reply)) = _ :=
    funext fun reply => dcaStep_extend positive intact small reply
  have product : (fun reply => dcaStepUnchecked off es pp (.extend nelems, reply)) = _ :=
    funext fun reply => dcaStepUnchecked_extend positive intact reply
  rw [sum] at defined ⊢
  rw [product]
  exact reserveBytes_agree_iff intact (by rw [defined]; rfl)

/-- Where the builds agree, the array has the room in both. -/
theorem room_of_same {es nelems : UInt64} (header : 16 ≤ off.toNat) (positive : 0 < es.toNat)
    (intact : IntactArray off pp) (fits : off.toNat + requested es pp (.extend nelems) ≤ SIZE_MAX)
    (same : (onMemory mem fun reply => dcaStep off es pp (.extend nelems, reply)).map visible =
      (onMemory mem fun reply => dcaStepUnchecked off es pp (.extend nelems, reply)).map visible) :
    ∀ step ∈ [dcaStep, dcaStepUnchecked], ∀ out,
      (onMemory mem fun reply => step off es pp (.extend nelems, reply)) = some out →
        out.ret.isSome →
        (nuDcaSize out.pp es).toNat + nelems.toNat ≤ (nuDcaCapacity out.pp es).toNat := by
  obtain ⟨reply, first, defined, run⟩ := dcaStep_defined mem header positive intact fits
  have seen : ∀ step ∈ [dcaStep, dcaStepUnchecked],
      (onMemory mem fun reply => step off es pp (.extend nelems, reply)).map visible =
        some (visible first) := by
    rw [defined] at same
    simp only [List.forall_mem_cons]
    exact ⟨by rw [defined]; rfl, same.symm, by simp⟩
  intro step member out returned success
  have alike := seen step member
  rw [returned, Option.map_some, Option.some.injEq] at alike
  simp only [visible, Prod.mk.injEq] at alike
  obtain ⟨ret, size, capacity⟩ := alike
  have room := extend_room header positive intact fits run (ret ▸ success)
  simpa only [nuDcaSize, nuDcaCapacity, size, capacity] using room

end

/-- Where the exact sizes are `size_t` values, the builds agree on every call except that extending
has to come to the same with the product of the counts as with their sum. -/
theorem dcaBuilds_agree_iff (mem : MemCall → Option Grant) (off es : UInt64) (pp : Option Block)
    (op : DcaOp) (header : 16 ≤ off.toNat) (positive : 0 < es.toNat) (intact : IntactArray off pp)
    (fits : off.toNat + requested es pp op ≤ SIZE_MAX) :
    BuildsAgree mem off es pp op ↔ AgreesWhen mem off es pp op := by
  have small : requested es pp op ≤ SIZE_MAX := Nat.le_trans (Nat.le_add_left _ _) fits
  by_cases extends' : ∃ nelems, op = .extend nelems
  · obtain ⟨nelems, rfl⟩ := extends'
    have sameIff : _ ↔ SumLikeProduct mem off es pp nelems :=
      extend_same_iff header positive intact fits
    constructor
    · exact fun agree => sameIff.mp agree.same
    · intro condition
      have same := sameIff.mpr condition
      refine ⟨same, ?_⟩
      rintro _ ⟨⟩
      exact room_of_same header positive intact fits same
  · have other : ∀ nelems, op ≠ .extend nelems := fun nelems extension =>
      extends' ⟨nelems, extension⟩
    have alike : (fun reply => dcaStepUnchecked off es pp (op, reply)) = fun reply =>
      dcaStep off es pp (op, reply) :=
      funext fun reply => dcaStepUnchecked_eq other small reply
    constructor
    · intro _
      cases op with
      | extend nelems => exact absurd rfl (other nelems)
      | reserve nelems => trivial
      | consume nelems => trivial
      | clean => trivial
      | release => trivial
    · intro _
      exact ⟨by rw [alike], fun nelems extension => absurd extension (other nelems)⟩

/-- Two elements and two more: sum and product are the same. -/
theorem dcaBuilds_agree_two :
    BuildsAgree (fun _ => some ⟨8192, fun _ => 0⟩) 16 4
      (some ⟨4096, baseBytes ⟨8, 8⟩ ++ [1, 0, 0, 0, 2, 0, 0, 0]⟩) (.extend 2) := by
  have intact : IntactArray 16 (some ⟨4096, baseBytes ⟨8, 8⟩ ++ [1, 0, 0, 0, 2, 0, 0, 0]⟩) := by
    rintro _ ⟨⟩
    exact ⟨⟨8, 8⟩, [1, 0, 0, 0, 2, 0, 0, 0], rfl, by decide, by decide⟩
  exact (dcaBuilds_agree_iff _ 16 4 _ _ (by decide) (by decide) intact (by decide)).mpr
    (Or.inl (by decide))

/-- An empty array is extended by one element: the build without checks asks for
no bytes and succeeds. -/
theorem dcaBuilds_differ :
    ¬ BuildsAgree (fun _ => some ⟨4096, fun _ => 0⟩) 16 4 none (.extend 1) ∧
      (onMemory (fun _ => some ⟨4096, fun _ => 0⟩) fun reply =>
        dcaStep 16 4 none (.extend 1, reply)).map visible =
        some (some 4112, 0, 4) ∧
      (onMemory (fun _ => some ⟨4096, fun _ => 0⟩) fun reply =>
        dcaStepUnchecked 16 4 none (.extend 1, reply)).map
        visible = some (some 4112, 0, 0) := by
  refine ⟨fun agree => ?_, by decide, by decide⟩
  exact absurd agree.same (by decide)

end NuLab.Dca
