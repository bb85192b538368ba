import NuLab.Dca.Refines

/-! # Typed arrays

`nu_G_dca(T)` stores elements of one fixed width.  `consumeElems` is what
`nu_dca_consume` does to the list of elements, for code that uses an array of `T`
without looking at its bytes.
-/

namespace NuLab.Dca

open NuLab.Bytes

variable {α : Type*}

/-- The array stores these elements, one after the other. -/
structure Holds (encode : α → List UInt8) (off : UInt64) (pp : Option Block) (list : List α) :
    Prop where
  intact : IntactArray off pp
  data : dataBytes off pp = list.flatMap encode

/-- NULL, or so many elements of unknown content behind the old ones. -/
def consumeElems (list : List α) (nelems : Nat) (reply : Option (Nat → α)) : Option (List α) :=
  reply.map fun fresh => list ++ (List.range nelems).map fresh

theorem exists_elems {encode : α → List UInt8} {width : Nat}
    (onto : ∀ bytes, bytes.length = width → ∃ a, encode a = bytes) (nelems : Nat)
    (bytes : List UInt8) (length : bytes.length = nelems * width) :
    ∃ list : List α, list.length = nelems ∧ list.flatMap encode = bytes := by
  induction nelems generalizing bytes with
  | zero =>
    rw [Nat.zero_mul, List.length_eq_zero_iff] at length
    exact ⟨[], rfl, length.symm⟩
  | succ nelems inductionHypothesis =>
    rw [Nat.succ_mul] at length
    obtain ⟨first, firstBytes⟩ := onto (bytes.take width) (List.length_take_of_le (by omega))
    obtain ⟨list, count, rest⟩ :=
      inductionHypothesis (bytes.drop width) (by rw [List.length_drop]; omega)
    refine ⟨first :: list, by rw [List.length_cons, count], ?_⟩
    rw [List.flatMap_cons, firstBytes, rest, List.take_append_drop]

theorem flatMap_width {encode : α → List UInt8} {width : Nat}
    (fixed : ∀ a, (encode a).length = width) (list : List α) :
    (list.flatMap encode).length = width * list.length := by
  induction list with
  | nil => rfl
  | cons first list inductionHypothesis =>
    rw [List.flatMap_cons, List.length_append, fixed, inductionHypothesis, List.length_cons,
      Nat.mul_succ, Nat.add_comm]

/-- `nu_dca_consume` does to the elements what `consumeElems` does, and returns the address
of the first new one. -/
theorem consume_holds {encode : α → List UInt8} {off es : UInt64} (nelems : UInt64)
    {pp : Option Block} {list : List α} (reply : Option Grant) (header : 16 ≤ off.toNat)
    (fixed : ∀ a, (encode a).length = es.toNat)
    (onto : ∀ bytes, bytes.length = es.toNat → ∃ a, encode a = bytes)
    (holds : Holds encode off pp list) (fits : NoWrap off es pp (.consume nelems, reply)) :
    ∃ out, nuMboxDcaConsume pp off es nelems reply = some out ∧ ((out.ret = none ∧ out.pp = pp) ∨
      ∃ fresh after data, consumeElems list nelems.toNat (some fresh) = some after ∧
        Holds encode off out.pp after ∧
        nuDcaData out.pp off = some data ∧ out.ret = some (data + es.toNat * list.length)) := by
  obtain ⟨out, run, ⟨null, same⟩ | ⟨nb, p, base, body, whole, consumed⟩⟩ :=
    mboxConsume_spec off es nelems pp reply header holds.intact fits
  · exact ⟨out, run, Or.inl ⟨null, same⟩⟩
  · obtain ⟨bytes, length, appended⟩ := consumed.appended
    obtain ⟨elems, count, elemBytes⟩ := exists_elems onto nelems.toNat bytes (length.trans whole)
    -- the unknown bytes are the encoding of some elements, which `consumeElems` is to append
    obtain ⟨unused, -⟩ := onto (List.replicate es.toNat 0) List.length_replicate
    have size : (nuDcaSizeInBytes pp).toNat = es.toNat * list.length := by
      rw [← dataBytes_size header holds.intact, holds.data, flatMap_width fixed]
    have read : (List.range nelems.toNat).map (fun k => elems.getD k unused) = elems := by
      apply List.ext_getElem
      · rw [List.length_map, List.length_range, count]
      · intro k _ inside
        rw [List.getElem_map, List.getElem_range, List.getD_eq_getElem?_getD,
          List.getElem?_eq_getElem inside, Option.getD_some]
    refine ⟨out, run,
      Or.inr ⟨fun k => elems.getD k unused, list ++ elems, p.addr + off.toNat, ?_, ?_, ?_, ?_⟩⟩
    · rw [consumeElems, Option.map_some, read]
    · refine ⟨by rw [consumed.pp]; exact consumed.intact.array, ?_⟩
      rw [consumed.pp, appended, holds.data, List.flatMap_append, elemBytes]
    · rw [consumed.pp]
      rfl
    · rw [consumed.ret, size]

end NuLab.Dca
