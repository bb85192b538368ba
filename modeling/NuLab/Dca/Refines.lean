import NuLab.Dca.Bounds
import NuLab.Lib.BlockFold

/-! # The dynamic array is a list

`ListArray` says what the array is for: places for elements, of which the first are
in use.  `Represents` says when a block stands for such a list, and
`actStep_refines` that every call and every write to a granted element is a step of
the list, whatever the allocator answers.
-/

namespace NuLab.Dca

open NuLab.Bytes NuLab.Run NuLab.BlockFold

/-! ## Lists with capacity -/

structure ListArray (α : Type*) where
  slots : List α
  size : Nat
  room : size ≤ slots.length

inductive Request (α : Type*) where
  | reserve (n : Nat)
  | extend (n : Nat)
  | consume (n : Nat)
  | clean
  | release
  | write (index : Nat) (value : α)

namespace ListArray

variable {α : Type*}

/-- The elements in use. -/
def elems (list : ListArray α) : List α := list.slots.take list.size

def capacity (list : ListArray α) : Nat := list.slots.length

def empty : ListArray α := ⟨[], 0, Nat.le_refl 0⟩

/-- What a request may do; `served` is false when it returns NULL.  A request that grows the
array adds places behind the old ones, which keep what was written to them, in use or not. -/
def Allows (before : ListArray α) (request : Request α) (served : Bool)
    (after : ListArray α) : Prop :=
  match request, served with
  | .reserve n, true =>
    after.size = before.size ∧ before.slots <+: after.slots ∧ n ≤ after.capacity
  | .extend n, true =>
    after.size = before.size ∧ before.slots <+: after.slots ∧ before.size + n ≤ after.capacity
  | .consume n, true => after.size = before.size + n ∧ before.slots <+: after.slots
  | .reserve _, false => after = before
  | .extend _, false => after = before
  | .consume _, false => after = before
  | .clean, _ => after.size = 0 ∧ after.slots = before.slots
  | .release, _ => after = empty
  | .write index value, _ =>
    after.size = before.size ∧ after.slots = before.slots.set index value

/-- Requests that leave the element at `index` alone. -/
def Keeps (index : Nat) : Request α → Prop
  | .clean => False
  | .release => False
  | .write other _ => other ≠ index
  | _ => True

theorem getElem?_of_prefix {slots longer : List α} {index : Nat} {value : α}
    (kept : slots <+: longer) (element : slots[index]? = some value) :
    longer[index]? = some value := by
  obtain ⟨added, rfl⟩ := kept
  obtain ⟨inside, -⟩ := List.getElem?_eq_some_iff.mp element
  rw [List.getElem?_append_left inside, element]

theorem Allows.keeps {before after : ListArray α} {request : Request α} {served : Bool}
    {index : Nat} {value : α} (allows : before.Allows request served after)
    (keeps : Keeps index request) (element : before.slots[index]? = some value) :
    after.slots[index]? = some value := by
  cases request with
  | reserve n =>
    cases served with
    | true => exact getElem?_of_prefix allows.2.1 element
    | false => rw [show after = before from allows, element]
  | extend n =>
    cases served with
    | true => exact getElem?_of_prefix allows.2.1 element
    | false => rw [show after = before from allows, element]
  | consume n =>
    cases served with
    | true => exact getElem?_of_prefix allows.2 element
    | false => rw [show after = before from allows, element]
  | clean => exact keeps.elim
  | release => exact keeps.elim
  | write other new => rw [allows.2, List.getElem?_set_ne keeps, element]

theorem Allows.size_le {before after : ListArray α} {request : Request α} {served : Bool}
    {index : Nat} (allows : before.Allows request served after) (keeps : Keeps index request) :
    before.size ≤ after.size := by
  cases request with
  | reserve n =>
    cases served with
    | true => exact allows.1.ge
    | false => rw [show after = before from allows]
  | extend n =>
    cases served with
    | true => exact allows.1.ge
    | false => rw [show after = before from allows]
  | consume n =>
    cases served with
    | true => exact allows.1.ge.trans' (Nat.le_add_right _ _)
    | false => rw [show after = before from allows]
  | clean => exact keeps.elim
  | release => exact keeps.elim
  | write other new => exact allows.1.ge

theorem elems_getElem? (list : ListArray α) (index : Nat) :
    list.elems[index]? = if index < list.size then list.slots[index]? else none :=
  List.getElem?_take

/-- An element in use stays in use. -/
theorem Allows.keeps_elems {before after : ListArray α} {request : Request α} {served : Bool}
    {index : Nat} {value : α} (allows : before.Allows request served after)
    (keeps : Keeps index request) (element : before.elems[index]? = some value) :
    after.elems[index]? = some value := by
  rw [elems_getElem?] at element ⊢
  split at element
  next used =>
    rw [if_pos (Nat.lt_of_lt_of_le used (allows.size_le keeps))]
    exact allows.keeps keeps element
  next => cases element

end ListArray

/-! ## Calls and writes -/

inductive DcaAction where
  | call (op : DcaOp) (reply : Option Grant)
  | write (index : UInt64) (value : List UInt8)

/-- `elems[index] = value`, behind the header of `off` bytes. -/
def writeElem (off es : UInt64) (pp : Option Block) (index : UInt64) (value : List UInt8) :
    Option Outcome :=
  match pp with
  | none => none
  | some p =>
    let start := off.toNat + es.toNat * index.toNat
    if value.length = es.toNat ∧ start + es.toNat ≤ p.bytes.length then
      some ⟨none,
        some { p with bytes := p.bytes.take start ++ (value ++ p.bytes.drop (start + es.toNat)) },
        []⟩
    else none

def actStep (off es : UInt64) (pp : Option Block) : DcaAction → Option Outcome
  | .call op reply => dcaStep off es pp (op, reply)
  | .write index value => writeElem off es pp index value

/-- No served request wraps, and writes go to granted elements. -/
def Legal (off es : UInt64) (pp : Option Block) : DcaAction → Prop
  | .call op reply => NoWrap off es pp (op, reply)
  | .write index value => index < nuDcaCapacity pp es ∧ value.length = es.toNat

def request : DcaAction → Request (List UInt8)
  | .call (.reserve nelems) _ => .reserve nelems.toNat
  | .call (.extend nelems) _ => .extend nelems.toNat
  | .call (.consume nelems) _ => .consume nelems.toNat
  | .call .clean _ => .clean
  | .call .release _ => .release
  | .write index value => .write index.toNat value

/-- The elements that are granted, each as its bytes, in use or not. -/
def slots (off es : UInt64) (pp : Option Block) : List (List UInt8) :=
  blocks es.toNat (grantedBytes off pp)

/-- The elements in use. -/
def elements (off es : UInt64) (pp : Option Block) : List (List UInt8) :=
  blocks es.toNat (dataBytes off pp)

structure Represents (off es : UInt64) (pp : Option Block) (list : ListArray (List UInt8)) :
    Prop where
  slots : slots off es pp = list.slots
  elems : elements off es pp = list.elems
  size : (nuDcaSize pp es).toNat = list.size
  capacity : (nuDcaCapacity pp es).toNat = list.capacity

/-- The element a successful call returns the address of. -/
def firstGranted (list : ListArray (List UInt8)) : Request (List UInt8) → Nat
  | .consume _ => list.size
  | _ => 0

/-- One step as a step of the list.  The address is that of the first new element for `consume`
and of the first element else, and a call that returns NULL leaves even the block as it was. -/
structure RefinesStep (off es : UInt64) (before : Option Block) (action : DcaAction) (out : Outcome)
    (list after : ListArray (List UInt8)) : Prop where
  start : Represents off es before list
  stop : Represents off es out.pp after
  allows : list.Allows (request action) out.ret.isSome after
  address : ∀ addr, out.ret = some addr → ∃ data, nuDcaData out.pp off = some data ∧
    addr = data + es.toNat * firstGranted list (request action)
  null : out.ret = none → (∃ op reply, action = .call op reply ∧ op ≠ .clean ∧ op ≠ .release) →
    out.pp = before

/-! ## The representation -/

/-- Intact, and in use up to an element boundary. -/
structure ElemArray (off es : UInt64) (pp : Option Block) : Prop where
  intact : IntactArray off pp
  whole : es.toNat ∣ (nuDcaSizeInBytes pp).toNat

theorem elemArray_none (off es : UInt64) : ElemArray off es none :=
  ⟨intactArray_none off, Nat.dvd_zero _⟩

theorem dataBytes_size {off : UInt64} {pp : Option Block} (header : 16 ≤ off.toNat)
    (intact : IntactArray off pp) :
    (dataBytes off pp).length = (nuDcaSizeInBytes pp).toNat := by
  cases pp with
  | none => rfl
  | some p =>
    obtain ⟨base, body, holds⟩ := intact p rfl
    rw [dataBytes_length holds header, holds.sizeInBytes]

theorem size_le_capacity {off : UInt64} {pp : Option Block} (intact : IntactArray off pp) :
    (nuDcaSizeInBytes pp).toNat ≤ (nuDcaCapacityInBytes pp).toNat := by
  cases pp with
  | none => exact Nat.le_refl _
  | some p =>
    obtain ⟨base, body, holds⟩ := intact p rfl
    rw [holds.sizeInBytes, holds.capacityInBytes]
    exact holds.ordered

theorem grantedBytes_length {off : UInt64} {pp : Option Block} (header : 16 ≤ off.toNat)
    (intact : IntactArray off pp) :
    (grantedBytes off pp).length = (nuDcaCapacityInBytes pp).toNat := by
  cases pp with
  | none => rfl
  | some p =>
    obtain ⟨base, body, holds⟩ := intact p rfl
    have full := holds.full
    rw [holds.grantedBytes header, holds.capacityInBytes, List.length_drop]
    omega

theorem dataBytes_eq_take {off : UInt64} {pp : Option Block} (intact : IntactArray off pp) :
    dataBytes off pp = (grantedBytes off pp).take (nuDcaSizeInBytes pp).toNat := by
  cases pp with
  | none => rfl
  | some p =>
    rw [dataBytes, grantedBytes, List.take_take, Nat.min_eq_left (size_le_capacity intact)]

theorem slots_length {off es : UInt64} {pp : Option Block} (header : 16 ≤ off.toNat)
    (intact : IntactArray off pp) : (slots off es pp).length = (nuDcaCapacity pp es).toNat := by
  rw [slots, blocks_length, grantedBytes_length header intact, nuDcaCapacity, UInt64.toNat_div]

theorem elements_eq_take {off es : UInt64} {pp : Option Block} (header : 16 ≤ off.toNat)
    (intact : IntactArray off pp) :
    elements off es pp = (slots off es pp).take (nuDcaSize pp es).toNat := by
  rw [elements, dataBytes_eq_take intact,
    blocks_take _ (by rw [grantedBytes_length header intact]; exact size_le_capacity intact),
    nuDcaSize, UInt64.toNat_div, slots]

/-- The list an intact array stands for. -/
def toList {off : UInt64} (es : UInt64) {pp : Option Block} (header : 16 ≤ off.toNat)
    (intact : IntactArray off pp) : ListArray (List UInt8) where
  slots := slots off es pp
  size := (nuDcaSize pp es).toNat
  room := by
    rw [slots_length header intact, nuDcaSize, nuDcaCapacity, UInt64.toNat_div, UInt64.toNat_div]
    exact Nat.div_le_div_right (size_le_capacity intact)

theorem toList_represents {off es : UInt64} {pp : Option Block} (header : 16 ≤ off.toNat)
    (intact : IntactArray off pp) : Represents off es pp (toList es header intact) :=
  ⟨rfl, elements_eq_take header intact, rfl, (slots_length header intact).symm⟩

/-- So the list after one step of a run is the list before the next. -/
theorem Represents.unique {off es : UInt64} {pp : Option Block}
    {first second : ListArray (List UInt8)} (represents : Represents off es pp first)
    (again : Represents off es pp second) : first = second := by
  cases first
  cases second
  simp only [ListArray.mk.injEq]
  exact ⟨represents.slots.symm.trans again.slots, represents.size.symm.trans again.size⟩

/-! ## Steps -/

theorem elems_dvd {off es : UInt64} {pp : Option Block} (holds : ElemArray off es pp) :
    es.toNat * (nuDcaSize pp es).toNat = (nuDcaSizeInBytes pp).toNat := by
  rw [nuDcaSize, UInt64.toNat_div]
  exact Nat.mul_div_cancel' holds.whole

theorem null_refines {off es : UInt64} {pp : Option Block} (header : 16 ≤ off.toNat)
    (holds : ElemArray off es pp) {op : DcaOp} {reply : Option Grant} {out : Outcome}
    (kind : op ≠ .clean ∧ op ≠ .release) (null : out.ret = none) (same : out.pp = pp) :
    (∃ list after, RefinesStep off es pp (.call op reply) out list after) ∧
      ElemArray off es out.pp := by
  have represents : Represents off es pp (toList es header holds.intact) :=
    toList_represents header holds.intact
  refine ⟨⟨_, _, represents, by rw [same]; exact represents, ?_, ?_, fun _ _ => same⟩,
    by rw [same]; exact holds⟩
  · rw [null]
    cases op with
    | reserve nelems => rfl
    | extend nelems => rfl
    | consume nelems => rfl
    | clean => exact absurd rfl kind.1
    | release => exact absurd rfl kind.2
  · intro addr returned
    rw [null] at returned
    cases returned

theorem capacity_enough {off es nb : UInt64} {n : Nat} {p : Block} {base : DcaBase}
    {body : List UInt8} (positive : 0 < es.toNat) (intact : Intact off p base body)
    (enough : nb.toNat ≤ base.bcap.toNat) (whole : nb.toNat = n * es.toNat) :
    n ≤ (nuDcaCapacity (some p) es).toNat := by
  rw [nuDcaCapacity, intact.capacityInBytes, UInt64.toNat_div,
    Nat.le_div_iff_mul_le positive, ← whole]
  exact enough

/-- A served `reserve` or `extend`: `op` is one of them and asks for room
for `n` elements in all. -/
theorem reserved_refines {off es nb : UInt64} {pp : Option Block} (header : 16 ≤ off.toNat)
    (positive : 0 < es.toNat) (holds : ElemArray off es pp) {op : DcaOp} {reply : Option Grant}
    {out : Outcome} {n : Nat} {p : Block} {base : DcaBase} {body : List UInt8}
    (reserved : Reserved off nb pp out p base body) (whole : nb.toNat = n * es.toNat)
    (kind : op = .reserve (UInt64.ofNat n) ∧ n < 2 ^ 64 ∨
      ∃ nelems, op = .extend nelems ∧ n = (nuDcaSize pp es).toNat + nelems.toNat) :
    (∃ list after, RefinesStep off es pp (.call op reply) out list after) ∧
      ElemArray off es out.pp := by
  have kept : IntactArray off out.pp := by rw [reserved.pp]; exact reserved.intact.array
  have sameSize : nuDcaSizeInBytes out.pp = nuDcaSizeInBytes pp := by
    rw [reserved.pp, reserved.intact.sizeInBytes, reserved.sameSize]
  have sameCount : (nuDcaSize out.pp es).toNat = (nuDcaSize pp es).toNat := by
    rw [nuDcaSize, sameSize, nuDcaSize]
  have grown : slots off es pp <+: slots off es out.pp := by
    rw [slots, slots, reserved.pp]
    exact blocks_prefix reserved.kept
  have enough : n ≤ (slots off es out.pp).length := by
    rw [slots_length header kept, reserved.pp]
    exact capacity_enough positive reserved.intact reserved.enough whole
  refine ⟨⟨_, _, toList_represents header holds.intact, toList_represents header kept,
    ?_, ?_, ?_⟩, kept, ?_⟩
  · rw [reserved.ret]
    obtain ⟨rfl, small⟩ | ⟨nelems, rfl, total⟩ := kind
    · exact ⟨sameCount, grown, by rw [UInt64.toNat_ofNat_of_lt' small]; exact enough⟩
    · exact ⟨sameCount, grown, total.ge.trans enough⟩
  · intro addr returned
    obtain rfl := Option.some.inj (reserved.ret.symm.trans returned)
    refine ⟨p.addr + off.toNat, by rw [reserved.pp]; rfl, ?_⟩
    obtain ⟨rfl, -⟩ | ⟨nelems, rfl, -⟩ := kind <;> rfl
  · intro null
    rw [reserved.ret] at null
    cases null
  · rw [sameSize]; exact holds.whole

theorem consumed_refines {off es nb nelems : UInt64} {pp : Option Block} (header : 16 ≤ off.toNat)
    (positive : 0 < es.toNat) (holds : ElemArray off es pp) {reply : Option Grant} {out : Outcome}
    {p : Block} {base : DcaBase} {body : List UInt8} (consumed : Consumed off nb pp out p base body)
    (whole : nb.toNat = nelems.toNat * es.toNat) :
    (∃ list after, RefinesStep off es pp (.call (.consume nelems) reply) out list after) ∧
      ElemArray off es out.pp := by
  have kept : IntactArray off out.pp := by rw [consumed.pp]; exact consumed.intact.array
  have grown : slots off es pp <+: slots off es out.pp := by
    rw [slots, slots, consumed.pp]
    exact blocks_prefix consumed.kept
  have counted : (nuDcaSize out.pp es).toNat = (nuDcaSize pp es).toNat + nelems.toNat := by
    rw [nuDcaSize, consumed.pp, consumed.intact.sizeInBytes, UInt64.toNat_div, consumed.size, whole,
      Nat.add_mul_div_right _ _ positive, nuDcaSize, UInt64.toNat_div]
  refine ⟨⟨_, _, toList_represents header holds.intact, toList_represents header kept,
    ?_, ?_, ?_⟩, kept, ?_⟩
  · rw [consumed.ret]
    exact ⟨counted, grown⟩
  · intro addr returned
    obtain rfl := Option.some.inj (consumed.ret.symm.trans returned)
    refine ⟨p.addr + off.toNat, by rw [consumed.pp]; rfl, ?_⟩
    rw [← elems_dvd holds]
    rfl
  · intro null
    rw [consumed.ret] at null
    cases null
  · rw [consumed.pp, consumed.intact.sizeInBytes, consumed.size, whole]
    exact Nat.dvd_add holds.whole (Nat.dvd_mul_left _ _)

theorem clean_refines {off es : UInt64} {pp : Option Block} (header : 16 ≤ off.toNat)
    (holds : ElemArray off es pp) (reply : Option Grant) :
    ∃ out, actStep off es pp (.call .clean reply) = some out ∧
      (∃ list after, RefinesStep off es pp (.call .clean reply) out list after) ∧
        ElemArray off es out.pp := by
  obtain ⟨after, run, kept, size, -, -, granted⟩ := mboxClean_spec off pp header holds.intact
  refine ⟨_, run,
    ⟨_, _, toList_represents header holds.intact, toList_represents header kept, ⟨?_, ?_⟩, ?_, ?_⟩,
    kept, by rw [size]; exact Nat.dvd_zero _⟩
  · show (nuDcaSize after es).toNat = 0
    rw [nuDcaSize, size, UInt64.toNat_div]
    exact Nat.zero_div _
  · show slots off es after = slots off es pp
    rw [slots, granted, slots]
  · rintro _ ⟨⟩
  · rintro - ⟨op, reply, same, notClean, -⟩
    cases same
    exact absurd rfl notClean

theorem release_refines {off es : UInt64} {pp : Option Block} (header : 16 ≤ off.toNat)
    (holds : ElemArray off es pp) (reply : Option Grant) :
    ∃ out, actStep off es pp (.call .release reply) = some out ∧
      (∃ list after, RefinesStep off es pp (.call .release reply) out list after) ∧
        ElemArray off es out.pp := by
  obtain ⟨calls, run⟩ := mboxRelease_spec off pp holds.intact
  have represents : Represents off es none ListArray.empty := by
    constructor
    · simp [slots, grantedBytes, blocks, ListArray.empty]
    · simp [elements, dataBytes, blocks, ListArray.elems, ListArray.empty]
    · simp [nuDcaSize, nuDcaSizeInBytes, ListArray.empty]
    · simp [nuDcaCapacity, nuDcaCapacityInBytes, ListArray.capacity, ListArray.empty]
  refine ⟨_, run, ⟨_, _, toList_represents header holds.intact, represents, rfl, ?_, ?_⟩,
    elemArray_none off es⟩
  · rintro _ ⟨⟩
  · rintro - ⟨op, reply, same, -, notRelease⟩
    cases same
    exact absurd rfl notRelease

/-! ## Writes -/

/-- The block after `elems[index] = value`. -/
theorem write_intact {off : UInt64} {p : Block} {base : DcaBase} {body value : List UInt8}
    {first : Nat} (header : 16 ≤ off.toNat) (intact : Intact off p base body)
    (inside : first + value.length ≤ base.bcap.toNat) :
    ∃ after, Intact off ⟨p.addr, p.bytes.take (off.toNat + first) ++
      (value ++ p.bytes.drop (off.toNat + first + value.length))⟩ base after := by
  have full := intact.full
  have front : p.bytes.take (off.toNat + first) = baseBytes base ++
      body.take (off.toNat + first - 16) := by
    rw [intact.bytes, List.take_append, baseBytes_length,
      List.take_of_length_le (by rw [baseBytes_length]; omega)]
  refine ⟨body.take (off.toNat + first - 16) ++
    (value ++ p.bytes.drop (off.toNat + first + value.length)),
    by rw [front, List.append_assoc], ?_, intact.ordered⟩
  rw [List.length_append, List.length_append, List.length_take, List.length_drop, intact.length]
  omega

/-- The write stays behind the header, so it changes the granted bytes only at its place. -/
theorem write_grantedBytes {off : UInt64} {p : Block} {base : DcaBase} {body value : List UInt8}
    {first : Nat} (header : 16 ≤ off.toNat) (intact : Intact off p base body)
    (inside : first + value.length ≤ base.bcap.toNat) :
    grantedBytes off (some ⟨p.addr, p.bytes.take (off.toNat + first) ++
      (value ++ p.bytes.drop (off.toNat + first + value.length))⟩) =
      (grantedBytes off (some p)).take first ++
        (value ++ (grantedBytes off (some p)).drop (first + value.length)) := by
  obtain ⟨bodyAfter, kept⟩ := write_intact header intact inside
  have length := intact.length
  have granted : ∀ {q : Block} {rest : List UInt8}, Intact off q base rest →
      grantedBytes off (some q) = q.bytes.drop off.toNat := fun {q rest} holds => by
    rw [grantedBytes, holds.capacityInBytes,
      List.take_of_length_le (by rw [List.length_drop, holds.length]; omega)]
  rw [granted kept, granted intact, List.drop_append_of_le_length (by rw [List.length_take]; omega),
    List.drop_take, Nat.add_sub_cancel_left, List.drop_drop, Nat.add_assoc]

theorem write_refines {off es : UInt64} {pp : Option Block} (header : 16 ≤ off.toNat)
    (holds : ElemArray off es pp) (index : UInt64) (value : List UInt8)
    (granted : index < nuDcaCapacity pp es) (size : value.length = es.toNat) :
    ∃ out, actStep off es pp (.write index value) = some out ∧
      (∃ list after, RefinesStep off es pp (.write index value) out list after) ∧
        ElemArray off es out.pp := by
  cases pp with
  | none =>
    exact absurd (UInt64.lt_iff_toNat_lt.mp granted) (by simp [nuDcaCapacity, nuDcaCapacityInBytes])
  | some p =>
    obtain ⟨base, body, intact⟩ := holds.intact p rfl
    have inside : es.toNat * index.toNat + value.length ≤ base.bcap.toNat := by
      have below := UInt64.lt_iff_toNat_lt.mp granted
      rw [nuDcaCapacity, intact.capacityInBytes, UInt64.toNat_div] at below
      rw [size]
      exact Nat.le_trans (block_end below) (Nat.mul_div_le _ _)
    obtain ⟨bodyAfter, kept⟩ := write_intact header intact inside
    have run : actStep off es (some p) (.write index value) = some ⟨none, some ⟨p.addr,
        p.bytes.take (off.toNat + es.toNat * index.toNat) ++
          (value ++ p.bytes.drop (off.toNat + es.toNat * index.toNat + value.length))⟩, []⟩ := by
      rw [actStep, writeElem, ← size, if_pos ⟨rfl, by rw [intact.length, size]; omega⟩]
    have room : es.toNat * index.toNat + es.toNat ≤ (grantedBytes off (some p)).length := by
      have ends := inside
      rw [size] at ends
      rw [grantedBytes_length header holds.intact, intact.capacityInBytes]
      exact ends
    have whole : es.toNat ∣ base.blen.toNat := by rw [← intact.sizeInBytes]; exact holds.whole
    refine ⟨_, run, ⟨_, _, toList_represents header holds.intact,
      toList_represents header kept.array, ⟨?_, ?_⟩, (by rintro _ ⟨⟩),
      (by rintro - ⟨op, reply, ⟨⟩, -⟩)⟩, kept.array, by rw [kept.sizeInBytes]; exact whole⟩
    · show (nuDcaSize _ es).toNat = (nuDcaSize (some p) es).toNat
      rw [nuDcaSize, kept.sizeInBytes, nuDcaSize, intact.sizeInBytes]
    · show slots off es _ = (slots off es (some p)).set index.toNat value
      rw [slots, write_grantedBytes header intact inside, size, blocks_splice _ value _ room size,
        slots]

/-! ## Runs -/

theorem actStep_refines (off es : UInt64) (header : 16 ≤ off.toNat) (positive : 0 < es.toNat)
    (pp : Option Block) (action : DcaAction) (holds : ElemArray off es pp)
    (legal : Legal off es pp action) :
    ∃ out, actStep off es pp action = some out ∧
      (∃ list after, RefinesStep off es pp action out list after) ∧ ElemArray off es out.pp := by
  cases action with
  | write index value => exact write_refines header holds index value legal.1 legal.2
  | call op reply =>
    cases op with
    | reserve nelems =>
      obtain ⟨out, run, ⟨null, same⟩ | ⟨nb, p, base, body, whole, reserved⟩⟩ :=
        mboxReserve_spec off es nelems pp reply header holds.intact legal
      · exact ⟨out, run, null_refines header holds (by simp) null same⟩
      · exact ⟨out, run, reserved_refines header positive holds reserved whole
          (Or.inl ⟨by rw [UInt64.ofNat_toNat], nelems.toNat_lt⟩)⟩
    | extend nelems =>
      obtain ⟨out, run, ⟨null, same⟩ | ⟨nb, p, base, body, whole, reserved⟩⟩ :=
        mboxExtend_spec off es nelems pp reply header positive holds.intact legal
      · exact ⟨out, run, null_refines header holds (by simp) null same⟩
      · exact ⟨out, run, reserved_refines header positive holds reserved whole
          (Or.inr ⟨nelems, rfl, rfl⟩)⟩
    | consume nelems =>
      obtain ⟨out, run, ⟨null, same⟩ | ⟨nb, p, base, body, whole, consumed⟩⟩ :=
        mboxConsume_spec off es nelems pp reply header holds.intact legal
      · exact ⟨out, run, null_refines header holds (by simp) null same⟩
      · exact ⟨out, run, consumed_refines header positive holds consumed whole⟩
    | clean => exact clean_refines header holds reply
    | release => exact release_refines header holds reply

theorem RefinesStep.keeps {off es : UInt64} {pp : Option Block} {action : DcaAction}
    {out : Outcome} {index : Nat} {value : List UInt8}
    (refines : ∃ list after, RefinesStep off es pp action out list after)
    (keeps : ListArray.Keeps index (request action)) :
    ((slots off es pp)[index]? = some value → (slots off es out.pp)[index]? = some value) ∧
    ((elements off es pp)[index]? = some value →
      (elements off es out.pp)[index]? = some value) := by
  obtain ⟨list, after, step⟩ := refines
  rw [step.start.slots, step.stop.slots, step.start.elems, step.stop.elems]
  exact ⟨step.allows.keeps keeps, step.allows.keeps_elems keeps⟩

/-- What a step cannot take away from one element is there at the end of the run. -/
theorem AllSteps.keeps {off es : UInt64} {index : Nat} {value : List UInt8}
    {view : Option Block → List (List UInt8)}
    (step : ∀ pp action out, (∃ list after, RefinesStep off es pp action out list after) →
      ListArray.Keeps index (request action) → (view pp)[index]? = some value →
      (view out.pp)[index]? = some value) {middle final : Option Block} {back : List DcaAction}
    (rest : AllSteps (actStep off es) Outcome.pp
      (fun pp action out => ∃ list after, RefinesStep off es pp action out list after) middle back)
    (ran : run (actStep off es) Outcome.pp middle back = some final)
    (keeps : ∀ action ∈ back, ListArray.Keeps index (request action))
    (element : (view middle)[index]? = some value) : (view final)[index]? = some value := by
  obtain ⟨again, sameRun, kept⟩ := AllSteps.run (fun pp => (view pp)[index]? = some value) middle
    back rest element (fun pp action out holds member refines =>
      step pp action out refines (keeps action member) holds)
  obtain rfl := Option.some.inj (sameRun.symm.trans ran)
  exact kept

/-- Every run of calls and granted writes on an empty array is a run of a list, whatever the
allocator answers, and a granted element keeps its value until it is written again or the list
cleared, also where it is granted but not in use yet. -/
theorem dca_refines_list (off es : UInt64) (header : 16 ≤ off.toNat) (positive : 0 < es.toNat)
    (actions : List DcaAction)
    (legal : Along (actStep off es) Outcome.pp (Legal off es) none actions) :
    AllSteps (actStep off es) Outcome.pp
      (fun pp action out => ∃ list after, RefinesStep off es pp action out list after)
      none actions ∧
    ∀ front back, actions = front ++ back →
      ∃ middle final, run (actStep off es) Outcome.pp none front = some middle ∧
        run (actStep off es) Outcome.pp middle back = some final ∧
        ∀ (index : Nat) (value : List UInt8),
          (∀ action ∈ back, ListArray.Keeps index (request action)) →
          ((slots off es middle)[index]? = some value →
            (slots off es final)[index]? = some value) ∧
          ((elements off es middle)[index]? = some value →
            (elements off es final)[index]? = some value) := by
  have all := allSteps_of_along (actStep_refines off es header positive) none actions
    (elemArray_none off es) legal
  refine ⟨all, ?_⟩
  rintro front back rfl
  obtain ⟨middle, frontRun, rest⟩ := AllSteps.append none front back all
  obtain ⟨final, backRun, -⟩ := AllSteps.run (fun _ => True) middle back rest trivial
    (fun _ _ _ _ _ _ => trivial)
  refine ⟨middle, final, frontRun, backRun, fun index value keeps => ⟨?_, ?_⟩⟩
  · exact AllSteps.keeps (fun _ _ _ refines keep => (RefinesStep.keeps refines keep).1)
      rest backRun keeps
  · exact AllSteps.keeps (fun _ _ _ refines keep => (RefinesStep.keeps refines keep).2)
      rest backRun keeps

/-- Room for two elements of one byte is reserved and the second is written before it is in use;
a larger request is refused, and `consume` hands out both. -/
def reserveWriteConsume : List DcaAction :=
  [.call (.reserve 2) (some ⟨4096, fun _ => 0⟩), .write 1 [7], .call (.extend 5) none,
    .call (.consume 2) none]

theorem dca_refines_list_two :
    AllSteps (actStep 16 1) Outcome.pp
      (fun pp action out => ∃ list after, RefinesStep 16 1 pp action out list after) none
      reserveWriteConsume ∧
    ∃ final, run (actStep 16 1) Outcome.pp none reserveWriteConsume = some final ∧
      (slots 16 1 final)[1]? = some [7] ∧ elements 16 1 final = [[0], [7]] := by
  have reserved : actStep 16 1 none (.call (.reserve 2) (some ⟨4096, fun _ => 0⟩)) =
      some ⟨some 4112, some ⟨4096, [2, 0, 0, 0, 0, 0, 0, 0, 0, 0, 0, 0, 0, 0, 0, 0, 0, 0]⟩,
        [.consume none 18 8]⟩ := by decide
  obtain ⟨all, kept⟩ := dca_refines_list 16 1 (by decide) (by decide) reserveWriteConsume (by
    refine ⟨fun _ _ _ => by decide, fun out run => ?_⟩
    obtain rfl := Option.some.inj (run.symm.trans reserved)
    refine ⟨⟨by decide, by decide⟩, fun _ _ => ⟨fun _ _ served => (by cases served), ?_⟩⟩
    exact fun _ _ => ⟨fun _ _ served => (by cases served), fun _ _ => trivial⟩)
  obtain ⟨middle, final, front, back, keeps⟩ := kept
    [.call (.reserve 2) (some ⟨4096, fun _ => 0⟩), .write 1 [7]]
    [.call (.extend 5) none, .call (.consume 2) none] rfl
  obtain rfl := Option.some.inj (front.symm.trans (by decide : _ = some (some ⟨4096,
    [2, 0, 0, 0, 0, 0, 0, 0, 0, 0, 0, 0, 0, 0, 0, 0, 0, 7]⟩)))
  have second : (slots 16 1 final)[1]? = some [7] :=
    (keeps 1 [7] (by simp [request, ListArray.Keeps])).1 (by decide)
  obtain rfl := Option.some.inj (back.symm.trans (by decide : _ = some (some ⟨4096,
    [2, 0, 0, 0, 0, 0, 0, 0, 2, 0, 0, 0, 0, 0, 0, 0, 0, 7]⟩)))
  exact ⟨all, _, by decide, second, by decide⟩

end NuLab.Dca
