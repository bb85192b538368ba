import NuLab.Transaction.Code

/-! # What an encoder appends

`Writes encoder code a` says what an encoder does as long as memory is available:
it leaves the bytes in the buffer as they are, appends `code` and returns `a`; or
it does not come to its end, if `code` is `none`.
-/

namespace NuLab.Transaction

open NuLab.Bytes NuLab.Dca

variable {α γ : Type}

/-- An allocator that never answers with NULL. -/
def served (fresh : Nat → Nat → UInt8) : Allocator := fun call => some (fresh call)

def Writes (encoder : Encoder α) (code : Option (List UInt8)) (a : α) : Prop :=
  ∀ fresh buf, ∃ calls, encoder (served fresh) buf = code.map fun code =>
    (a, ⟨buf.bytes ++ code, calls⟩)

theorem bind_run (first : Encoder α) (next : α → Encoder γ) (mem : Allocator) (buf : Buffer) :
    (first >>= next) mem buf = (first mem buf).bind fun result => next result.1 mem result.2 := rfl

/-- The encoder goes on if the assertion holds. -/
theorem nuAssert_bind {x : Prop} [Decidable x] (holds : x) (next : Unit → Encoder γ) :
    (nuAssert x >>= next) = next () := by
  funext mem buf
  rw [bind_run, nuAssert, if_pos holds, Option.bind_some]

theorem writes_pure (a : α) : Writes (pure a) (some []) a := by
  intro fresh buf
  exact ⟨buf.calls, by rw [Option.map_some, List.append_nil]; rfl⟩

theorem Writes.bind {first : Encoder α} {next : α → Encoder γ} {code code' : Option (List UInt8)}
    {a : α} {c : γ} (writes : Writes first code a) (writes' : Writes (next a) code' c) :
    Writes (first >>= next) (code.bind fun front => code'.map (front ++ ·)) c := by
  intro fresh buf
  obtain ⟨calls, run⟩ := writes fresh buf
  rw [bind_run, run]
  cases code with
  | none => exact ⟨0, rfl⟩
  | some front =>
    obtain ⟨calls', run'⟩ := writes' fresh ⟨buf.bytes ++ front, calls⟩
    refine ⟨calls', ?_⟩
    rw [Option.map_some, Option.bind_some, run', Option.bind_some]
    cases code' with
    | none => rfl
    | some back => rw [Option.map_some, Option.map_some, Option.map_some, List.append_assoc]

/-- The usual case: the first encoder does not fail. -/
theorem Writes.seq {first : Encoder α} {next : α → Encoder γ} {front : List UInt8}
    {code : Option (List UInt8)} {a : α} {c : γ} (writes : Writes first (some front) a)
    (writes' : Writes (next a) code c) : Writes (first >>= next) (code.map (front ++ ·)) c :=
  writes.bind writes'

theorem Writes.append {first : Encoder α} {next : α → Encoder γ} {front back : List UInt8} {a : α}
    {c : γ} (writes : Writes first (some front) a) (writes' : Writes (next a) (some back) c) :
    Writes (first >>= next) (some (front ++ back)) c := writes.bind writes'

/-- The result of the first encoder is ignored. -/
theorem Writes.last {first : Encoder α} {code : Option (List UInt8)} {a : α}
    (writes : Writes first code a) (c : γ) :
    Writes (first >>= fun _ => pure c) code c := by
  have both : Writes (first >>= fun _ => pure c)
    (code.bind fun front => (some []).map (front ++ ·)) c :=
    writes.bind (writes_pure c)
  cases code with
  | none => exact both
  | some front =>
    rw [Option.bind_some, Option.map_some, List.append_nil] at both
    exact both

/-- What an encoder appends is determined, also where it does not come to its end. -/
theorem Writes.unique {encoder : Encoder α} {code code' : Option (List UInt8)} {a b : α}
    (writes : Writes encoder code a) (again : Writes encoder code' b) : code = code' := by
  obtain ⟨calls, run⟩ := writes (fun _ _ => 0) ⟨[], 0⟩
  obtain ⟨calls', run'⟩ := again (fun _ _ => 0) ⟨[], 0⟩
  rw [run] at run'
  cases code with
  | none =>
    cases code' with
    | none => rfl
    | some code' => simp at run'
  | some code =>
    cases code' with
    | none => simp at run'
    | some code' =>
      simp only [Option.map_some, List.nil_append, Option.some.injEq, Prod.mk.injEq,
        Buffer.mk.injEq] at run'
      rw [run'.2.1]

/-! ## Writing through pointers -/

/-- The buffer is an array of bytes, and the position is where the returned pointer points to. -/
theorem nuBufferConsume_block (num : UInt64) {off : UInt64} {pp : Option Block} (buf : Buffer)
    (answer : Option Grant) (header : 16 ≤ off.toNat)
    (holds : Holds (fun byte => [byte]) off pp buf.bytes)
    (fits : NoWrap off 1 pp (.consume num, answer)) :
    ∃ out reply position after, nuMboxDcaConsume pp off 1 num answer = some out ∧
      nuBufferConsume num.toNat (fun _ => reply) buf = some (position, after) ∧
      Holds (fun byte => [byte]) off out.pp after.bytes ∧
      out.ret = position.bind fun position => (nuDcaData out.pp off).map (· + position) := by
  have onto : ∀ bytes : List UInt8, bytes.length = (1 : UInt64).toNat → ∃ byte, [byte] = bytes := by
    intro bytes length
    obtain ⟨byte, same⟩ := List.length_eq_one_iff.mp length
    exact ⟨byte, same.symm⟩
  obtain ⟨out, run, ⟨null, same⟩ | ⟨fresh, after, data, consumed, stored, granted, address⟩⟩ :=
    consume_holds num answer header (fun _ => rfl) onto holds fits
  · exact ⟨out, none, none, { buf with calls := buf.calls + 1 }, run, rfl,
      by rw [same]; exact holds, null⟩
  · refine ⟨out, some fresh, some buf.bytes.length, ⟨after, buf.calls + 1⟩, run, ?_, stored, ?_⟩
    · rw [nuBufferConsume]
      simp only [consumed]
    · rw [address, granted, Option.bind_some, Option.map_some,
        show (1 : UInt64).toNat = 1 from rfl, Nat.one_mul]

theorem consume_run (fresh : Nat → Nat → UInt8) (buf : Buffer) (num : Nat) :
    nuBufferConsume num (served fresh) buf = some (some buf.bytes.length,
      ⟨buf.bytes ++ (List.range num).map (fresh buf.calls), buf.calls + 1⟩) := rfl

/-- A store into the consumed bytes; `front` has been written before. -/
theorem store_run (mem : Allocator) (old front back value : List UInt8) (calls : Nat)
    (room : value.length ≤ back.length) :
    store (some old.length) front.length value mem ⟨old ++ (front ++ back), calls⟩ =
      some ((), ⟨old ++ (front ++ (value ++ back.drop value.length)), calls⟩) := by
  have inside : old.length + front.length + value.length ≤ (old ++ (front ++ back)).length := by
    simp only [List.length_append]
    omega
  rw [store]
  simp only [if_pos inside]
  rw [← List.append_assoc old, List.take_left' List.length_append, List.append_assoc,
    ← List.length_append, List.drop_length_add_append]

theorem store_first (mem : Allocator) (old fresh value : List UInt8) (calls : Nat)
    (room : value.length ≤ fresh.length) :
    store (some old.length) 0 value mem ⟨old ++ fresh, calls⟩ =
      some ((), ⟨old ++ (value ++ fresh.drop value.length), calls⟩) :=
  store_run mem old [] fresh value calls room

/-- All consumed bytes are written at once. -/
theorem store_all (mem : Allocator) (old fresh value : List UInt8) (calls : Nat)
    (same : fresh.length = value.length) :
    store (some old.length) 0 value mem ⟨old ++ fresh, calls⟩ =
      some ((), ⟨old ++ value, calls⟩) := by
  rw [store_first mem old fresh value calls (Nat.le_of_eq same.symm), ← same,
    List.drop_length, List.append_nil]

/-- The store behind a marker, which leaves none of the consumed bytes. -/
theorem store_behind (mem : Allocator) (old fresh value : List UInt8) (marker : UInt8) (calls : Nat)
    (same : fresh.length = 1 + value.length) :
    store (some old.length) 1 value mem ⟨old ++ ([marker] ++ fresh.drop [marker].length), calls⟩ =
      some ((), ⟨old ++ (marker :: value), calls⟩) := by
  have second := store_run mem old [marker] (fresh.drop [marker].length) value
    calls (by simp [same])
  rw [List.drop_drop, List.drop_of_length_le (i := _ + _) (by simp [same]),
    List.append_nil] at second
  exact second

/-! ## Integers and bytes -/

theorem writes_appendInteger (width val : Nat) :
    Writes (appendInteger width val) (some (toLE width val)) 0 := by
  intro fresh buf
  refine ⟨buf.calls + 1, ?_⟩
  rw [appendInteger, bind_run, consume_run, Option.bind_some, bind_run,
    store_all _ _ _ _ _ (by simp), Option.bind_some]
  rfl

theorem writes_appendMarked (marker : UInt8) (width : Nat) (val : UInt64) :
    Writes (appendMarked marker width val) (some (marker :: toLE width val.toNat)) 0 := by
  intro fresh buf
  refine ⟨buf.calls + 1, ?_⟩
  rw [appendMarked, bind_run, consume_run, Option.bind_some, bind_run,
    store_first _ _ _ _ _ (by simp), Option.bind_some, bind_run, store_behind _ _ _ _ _ _ (by simp),
    Option.bind_some]
  rfl

/-- The bytes that `bc_append_varint` appends. -/
def varint (val : UInt64) : List UInt8 :=
  if val < 0xFD then [val.toUInt8]
  else if val < 0xFFFF then 0xFD :: toLE 2 val.toNat
  else if val < 0xFFFFFFFF then 0xFE :: toLE 4 val.toNat
  else 0xFF :: toLE 8 val.toNat

theorem writes_bcAppendVarint (val : UInt64) :
    Writes (bcAppendVarint val) (some (varint val)) 0 := by
  unfold bcAppendVarint varint
  by_cases one : val < 0xFD
  · rw [if_pos one, if_pos one]
    intro fresh buf
    refine ⟨buf.calls + 1, ?_⟩
    rw [bind_run, consume_run, Option.bind_some, bind_run, store_all _ _ _ _ _ (by simp),
      Option.bind_some]
    rfl
  · rw [if_neg one, if_neg one]
    by_cases three : val < 0xFFFF
    · rw [if_pos three, if_pos three]
      exact writes_appendMarked 0xFD 2 val
    · rw [if_neg three, if_neg three]
      by_cases five : val < 0xFFFFFFFF
      · rw [if_pos five, if_pos five]
        exact writes_appendMarked 0xFE 4 val
      · rw [if_neg five, if_neg five]
        exact writes_appendMarked 0xFF 8 val

theorem writes_bcAppendBytes (dat : List UInt8) (num : UInt64) :
    Writes (bcAppendBytes dat num)
      (if num.toNat ≤ dat.length then some (dat.take num.toNat) else none) 1 := by
  intro fresh buf
  refine ⟨buf.calls + 1, ?_⟩
  rw [bcAppendBytes, bind_run, consume_run, Option.bind_some]
  simp only [Option.isSome_some, if_true]
  by_cases inside : num.toNat ≤ dat.length
  · have value : readBytes dat num.toNat (served fresh)
        ⟨buf.bytes ++ (List.range num.toNat).map (fresh buf.calls), buf.calls + 1⟩ =
          some (dat.take num.toNat,
            ⟨buf.bytes ++ (List.range num.toNat).map (fresh buf.calls), buf.calls + 1⟩) :=
      if_pos inside
    rw [bind_run, value, Option.bind_some, bind_run, store_all _ _ _ _ _ (by simpa using inside),
      if_pos inside]
    rfl
  · have value : readBytes dat num.toNat (served fresh)
      ⟨buf.bytes ++ (List.range num.toNat).map (fresh buf.calls),
        buf.calls + 1⟩ = none := if_neg inside
    rw [bind_run, value, if_neg inside]
    rfl

theorem writes_bcAppendHash32 (val : BcHash32) :
    Writes (bcAppendHash32 val) (some val.toList) 1 := by
  intro fresh buf
  refine ⟨buf.calls + 1, ?_⟩
  rw [bcAppendHash32, bind_run, consume_run, Option.bind_some]
  simp only [Option.isSome_some, if_true]
  rw [bind_run, store_all _ _ _ _ _ (by simp)]
  rfl

theorem writes_bcAppendU32 (val : UInt32) : Writes (bcAppendU32 val) (some (toLE 4 val.toNat)) 0 :=
  writes_appendInteger 4 val.toNat

theorem writes_bcAppendU64 (val : UInt64) : Writes (bcAppendU64 val) (some (toLE 8 val.toNat)) 0 :=
  writes_appendInteger 8 val.toNat

theorem writes_nuBufferExtend (num : Nat) : Writes (nuBufferExtend num) (some []) true :=
  fun _ buf => ⟨buf.calls + 1, by rw [Option.map_some, List.append_nil]; rfl⟩

/-- What has as many elements as a count of 0 states is empty. -/
theorem counted_empty {β : Type} {list : List β} {num : UInt64} (counted : list.length = num.toNat)
    (zero : ¬ num ≠ 0) : list = [] := by
  rw [not_not.mp zero] at counted
  exact List.length_eq_zero_iff.mp counted

/-- The counts and sizes of the source: an array has as many elements as its count states. -/
theorem writes_counted {dat : List UInt8} {num : UInt64} (counted : dat.length = num.toNat) :
    Writes (bcAppendBytes dat num) (some dat) 1 := by
  have writes := writes_bcAppendBytes dat num
  rwa [if_pos (Nat.le_of_eq counted.symm), List.take_of_length_le (Nat.le_of_eq counted)] at writes

/-! ## Loops -/

/-- What a loop over the first `count` elements appends. -/
def eachCode (code : α → Option (List UInt8)) : Nat → List α → Option (List UInt8)
  | 0, _ => some []
  | _ + 1, [] => none
  | count + 1, a :: vec => (code a).bind fun front => (eachCode code count vec).map (front ++ ·)

/-- A loop that goes through its first element fails neither there nor later. -/
theorem eachCode_cons {code : α → Option (List UInt8)} {count : Nat} {a : α} {vec : List α}
    {all : List UInt8} (found : eachCode code (count + 1) (a :: vec) = some all) :
    ∃ front back, code a = some front ∧ eachCode code count vec = some back ∧
      front ++ back = all := by
  obtain ⟨front, foundFront, found⟩ := Option.bind_eq_some_iff.mp found
  obtain ⟨back, foundBack, joined⟩ := Option.map_eq_some_iff.mp found
  exact ⟨front, back, foundFront, foundBack, joined⟩

theorem writes_forEach {body : α → Encoder Unit} {code : α → Option (List UInt8)} (count : Nat)
    (vec : List α) (writes : ∀ a ∈ vec.take count, Writes (body a) (code a) ()) :
    Writes (forEach body count vec) (eachCode code count vec) () := by
  induction count generalizing vec with
  | zero => exact writes_pure ()
  | succ count inductionHypothesis =>
    cases vec with
    | nil =>
      -- the loop reads behind the array
      exact fun fresh buf => ⟨0, rfl⟩
    | cons a vec =>
      rw [List.take_succ_cons] at writes
      have rest := inductionHypothesis vec fun a member => writes a (List.mem_cons_of_mem _ member)
      exact (writes a List.mem_cons_self).bind rest

theorem eachCode_all {code : α → Option (List UInt8)} {total : α → List UInt8} (vec : List α)
    (defined : ∀ a ∈ vec, code a = some (total a)) :
    eachCode code vec.length vec = some (vec.flatMap total) := by
  induction vec with
  | nil => rfl
  | cons a vec inductionHypothesis =>
    have rest := inductionHypothesis fun a member => defined a (List.mem_cons_of_mem _ member)
    rw [List.length_cons, eachCode, defined a List.mem_cons_self, Option.bind_some, rest,
      Option.map_some, List.flatMap_cons]

/-- A loop over exactly the elements of an array, whose body never fails. -/
theorem writes_all {body : α → Encoder Unit} {code : α → List UInt8} {count : Nat} {vec : List α}
    (counted : vec.length = count) (writes : ∀ a ∈ vec, Writes (body a) (some (code a)) ()) :
    Writes (forEach body count vec) (some (vec.flatMap code)) () := by
  subst counted
  have all := writes_forEach vec.length vec fun a member => writes a (List.mem_of_mem_take member)
  rwa [eachCode_all vec fun _ _ => rfl] at all

/-! ## What an encoder begins with -/

/-- Whenever the encoder returns, the buffer has got these bytes and maybe more. -/
def Begins (encoder : Encoder α) (front : List UInt8) : Prop :=
  ∀ fresh buf a after, encoder (served fresh) buf = some (a, after) →
    ∃ code, after.bytes = buf.bytes ++ (front ++ code)

theorem begins_pure (a : α) : Begins (pure a) [] := by
  intro fresh buf a' after run
  cases run
  exact ⟨[], by simp⟩

theorem begins_nuAssert {x : Prop} [Decidable x] {next : Unit → Encoder γ} {front : List UInt8}
    (begins : Begins (next ()) front) : Begins (nuAssert x >>= next) front := by
  by_cases holds : x
  · rw [nuAssert_bind holds]
    exact begins
  · intro fresh buf a after run
    rw [bind_run, nuAssert, if_neg holds] at run
    cases run

theorem Writes.begins {encoder : Encoder α} {code : Option (List UInt8)} {a : α}
    (writes : Writes encoder code a) :
    Begins encoder [] := by
  intro fresh buf a' after run
  obtain ⟨calls, run'⟩ := writes fresh buf
  rw [run'] at run
  cases code with
  | none => cases run
  | some code =>
    cases run
    exact ⟨code, rfl⟩

theorem Begins.bind {first : Encoder α} {next : α → Encoder γ} {front : List UInt8}
    (begins : Begins first front) (begins' : ∀ a, Begins (next a) []) :
    Begins (first >>= next) front := by
  intro fresh buf c after run
  rw [bind_run] at run
  obtain ⟨⟨a, middle⟩, run, run'⟩ := Option.bind_eq_some_iff.mp run
  obtain ⟨code, same⟩ := begins fresh buf a middle run
  obtain ⟨code', same'⟩ := begins' a fresh middle c after run'
  exact ⟨code ++ code', by rw [same', same, List.nil_append, List.append_assoc, List.append_assoc]⟩

theorem Writes.before {first : Encoder α} {next : α → Encoder γ} {front back : List UInt8} {a : α}
    (writes : Writes first (some front) a) (begins : Begins (next a) back) :
    Begins (first >>= next) (front ++ back) := by
  intro fresh buf c after run
  obtain ⟨calls, written⟩ := writes fresh buf
  rw [bind_run, written, Option.map_some, Option.bind_some] at run
  obtain ⟨code, same⟩ := begins fresh _ c after run
  exact ⟨code, by rw [same, List.append_assoc, List.append_assoc]⟩

theorem begins_forEach {body : α → Encoder Unit} (begins : ∀ a, Begins (body a) []) (count : Nat)
    (vec : List α) : Begins (forEach body count vec) [] := by
  induction count generalizing vec with
  | zero => exact begins_pure ()
  | succ count inductionHypothesis =>
    cases vec with
    | nil =>
      intro fresh buf a after run
      cases run
    | cons a vec => exact (begins a).bind fun _ => inductionHypothesis vec

theorem begins_bcAppendTxInput (txi : BcTxInput) : Begins (bcAppendTxInput txi) [] := by
  refine (writes_bcAppendHash32 txi.txid).begins.bind fun _ => ?_
  refine (writes_bcAppendU32 txi.vout).begins.bind fun _ => ?_
  refine (writes_bcAppendVarint txi.scriptSigSize).begins.bind fun _ => ?_
  have last : Begins (bcAppendU32 txi.sequence >>= fun _ => (pure 0 : Encoder Int)) [] :=
    (writes_bcAppendU32 txi.sequence).begins.bind fun _ => begins_pure 0
  split
  · apply begins_nuAssert
    exact (writes_bcAppendBytes txi.scriptSig txi.scriptSigSize).begins.bind fun _ => last
  · exact last

theorem begins_bcAppendTxOutput (txo : BcTxOutput) : Begins (bcAppendTxOutput txo) [] := by
  refine (writes_bcAppendU64 txo.amount).begins.bind fun _ => ?_
  refine (writes_bcAppendVarint txo.scriptPubKeySize).begins.bind fun _ => ?_
  split
  · apply begins_nuAssert
    exact (writes_bcAppendBytes txo.scriptPubKey txo.scriptPubKeySize).begins.bind fun _ =>
      begins_pure 0
  · exact begins_pure 0

theorem begins_appendWitnessField (f : BcWitnessField) : Begins (appendWitnessField f) [] := by
  refine begins_nuAssert (begins_nuAssert ?_)
  refine (writes_bcAppendVarint f.size).begins.bind fun _ => ?_
  exact (writes_bcAppendBytes f.bytes f.size).begins.bind fun _ => begins_pure ()

theorem begins_appendWitness (inCount : UInt64) (w : BcWitness) :
    Begins (appendWitness inCount w) [] := by
  refine begins_nuAssert ((writes_bcAppendVarint w.stackItems).begins.bind fun _ => ?_)
  split
  · exact begins_nuAssert (begins_forEach begins_appendWitnessField inCount.toNat w.entries)
  · exact begins_pure ()

/-- The section of the inputs begins with their count. -/
theorem begins_bcAppendTxInputsSection (tx : BcTxInfo) :
    Begins (bcAppendTxInputsSection tx) (varint tx.inCount) := by
  have inputs :
    Begins (forEach (fun txi => do let _ ← bcAppendTxInput txi) tx.inCount.toNat tx.inVec) [] :=
    begins_forEach (fun txi => (begins_bcAppendTxInput txi).bind fun _ => begins_pure ()) _ _
  have whole : Begins (bcAppendTxInputsSection tx) (varint tx.inCount ++ []) :=
    begins_nuAssert ((writes_bcAppendVarint tx.inCount).before (inputs.bind fun _ => begins_pure 0))
  rwa [List.append_nil] at whole

theorem begins_bcAppendTxOutputsSection (tx : BcTxInfo) :
    Begins (bcAppendTxOutputsSection tx) [] := by
  refine begins_nuAssert ((writes_bcAppendVarint tx.outCount).begins.bind fun _ => ?_)
  refine (begins_forEach (fun txo => ?_) _ _).bind fun _ => begins_pure 0
  exact (begins_bcAppendTxOutput txo).bind fun _ => begins_pure ()

theorem begins_bcAppendTxWitnessesSection (tx : BcTxInfo) :
    Begins (bcAppendTxWitnessesSection tx) [] := by
  refine begins_nuAssert ((writes_bcAppendVarint tx.inCount).begins.bind fun _ => ?_)
  exact (begins_forEach (begins_appendWitness tx.inCount) _ _).bind fun _ => begins_pure 0

/-- Version and count of the inputs, with marker and flags between them if there are flags. -/
theorem begins_bcAppendTransaction (tx : BcTxInfo) :
    Begins (bcAppendTransaction tx) (toLE 4 tx.version.toNat ++
      ((if tx.flags ≠ 0 then [tx.marker, tx.flags] else []) ++ varint tx.inCount)) := by
  have last : Begins (bcAppendU32 tx.lockTime >>= fun _ => (pure 0 : Encoder Int)) [] :=
    (writes_bcAppendU32 tx.lockTime).begins.bind fun _ => begins_pure 0
  unfold bcAppendTransaction
  by_cases segwit : tx.flags ≠ 0
  · rw [if_pos segwit, if_pos segwit]
    have marker : Writes (bcAppendBytes [tx.marker] 1) (some [tx.marker]) 1 := writes_counted rfl
    have flags : Writes (bcAppendBytes [tx.flags] 1) (some [tx.flags]) 1 := writes_counted rfl
    refine (writes_bcAppendU32 tx.version).before (marker.before (flags.before ?_))
    refine (begins_bcAppendTxInputsSection tx).bind fun _ => ?_
    refine (begins_bcAppendTxOutputsSection tx).bind fun _ => ?_
    exact (begins_bcAppendTxWitnessesSection tx).bind fun _ => last
  · rw [if_neg segwit, if_neg segwit]
    refine (writes_bcAppendU32 tx.version).before ?_
    refine (begins_bcAppendTxInputsSection tx).bind fun _ => ?_
    exact (begins_bcAppendTxOutputsSection tx).bind fun _ => last

end NuLab.Transaction
