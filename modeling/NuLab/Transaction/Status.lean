import NuLab.Transaction.Requests

/-! # What the encoders return

Integers and everything made of several parts return 0, blocks of bytes return 1
where they are written and 0 where they are not.  Only the first of the two agrees with
what the callers take for success.
-/

namespace NuLab.Transaction

open NuLab.Bytes NuLab.Dca

/-! ## The requests of transactions -/

def Emission.u32 (val : UInt32) : Emission := .integer 3 val.toNat

def Emission.u64 (val : UInt64) : Emission := .integer 7 val.toNat

/-- A script, which is left out if its size is 0. -/
def scriptEmissions (script : List UInt8) (size : UInt64) : List Emission :=
  if size ≠ 0 then [.checked (script.take size.toNat)] else []

def inputEmissions (txi : BcTxInput) : List Emission :=
  .checked txi.txid.toList :: .u32 txi.vout :: .varint txi.scriptSigSize ::
    (scriptEmissions txi.scriptSig txi.scriptSigSize ++ [.u32 txi.sequence])

def outputEmissions (txo : BcTxOutput) : List Emission :=
  .u64 txo.amount :: .varint txo.scriptPubKeySize ::
    scriptEmissions txo.scriptPubKey txo.scriptPubKeySize

def inputsEmissions (tx : BcTxInfo) : List Emission :=
  .varint tx.inCount :: (tx.inVec.take tx.inCount.toNat).flatMap inputEmissions

def outputsEmissions (tx : BcTxInfo) : List Emission :=
  .varint tx.outCount :: (tx.outVec.take tx.outCount.toNat).flatMap outputEmissions

def fieldEmissions (f : BcWitnessField) : List Emission :=
  [.varint f.size, .checked (f.bytes.take f.size.toNat)]

def witnessEmissions (inCount : UInt64) (w : BcWitness) : List Emission :=
  .varint w.stackItems ::
    if w.stackItems ≠ 0 then (w.entries.take inCount.toNat).flatMap fieldEmissions else []

def witnessesEmissions (tx : BcTxInfo) : List Emission :=
  .varint tx.inCount :: (tx.witnessVec.take tx.inCount.toNat).flatMap (witnessEmissions tx.inCount)

def legacyEmissions (tx : BcTxInfo) : List Emission :=
  .u32 tx.version :: (inputsEmissions tx ++ (outputsEmissions tx ++ [.u32 tx.lockTime]))

def segwitEmissions (tx : BcTxInfo) : List Emission :=
  .u32 tx.version :: .checked [tx.marker] :: .checked [tx.flags] ::
    (inputsEmissions tx ++ (outputsEmissions tx ++ (witnessesEmissions tx ++ [.u32 tx.lockTime])))

def transactionEmissions (tx : BcTxInfo) : List Emission :=
  if tx.flags ≠ 0 then segwitEmissions tx else legacyEmissions tx

/-! ## The encoders make these requests -/

/-- A script is the last part or in front of one. -/
theorem emits_script {script : List UInt8} {size : UInt64} (readable : BytesReadable size script)
    {next : Encoder Int} {emissions : List Emission} {a : Int} (emits : Emits next emissions a) :
    Emits (if size ≠ 0 then do
        nuAssert (size.toNat < SIZE_MAX)
        let _ ← bcAppendBytes script size
        next
      else next) (scriptEmissions script size ++ emissions) a := by
  unfold scriptEmissions
  by_cases filled : size ≠ 0
  · rw [if_pos filled, if_pos filled, nuAssert_bind readable.small]
    exact (answers_bcAppendBytes readable.long).requests.bind fun _ => emits
  · rw [if_neg filled, if_neg filled]
    exact emits

theorem emits_bcAppendTxInput {txi : BcTxInput} (readable : InputReadable txi) :
    Emits (bcAppendTxInput txi) (inputEmissions txi) 0 := by
  have sequence : Emits (bcAppendU32 txi.sequence >>= fun _ => pure (0 : Int))
      [.u32 txi.sequence] 0 :=
    (emits_appendInteger 3 txi.sequence.toNat).requests.last 0
  exact (answers_bcAppendHash32 txi.txid).requests.bind fun _ =>
    (emits_appendInteger 3 txi.vout.toNat).requests.bind fun _ =>
      (emits_bcAppendVarint txi.scriptSigSize).requests.bind fun _ => emits_script readable sequence

theorem emits_bcAppendTxOutput {txo : BcTxOutput} (readable : OutputReadable txo) :
    Emits (bcAppendTxOutput txo) (outputEmissions txo) 0 := by
  have script := emits_script readable (emits_pure (0 : Int))
  rw [List.append_nil] at script
  exact (emits_appendInteger 7 txo.amount.toNat).requests.bind fun _ =>
    (emits_bcAppendVarint txo.scriptPubKeySize).requests.bind fun _ => script

/-- A count and as many elements of an array. -/
theorem emits_section {α : Type} {body : α → Encoder Unit} {emissions : α → List Emission}
    {each : α → Prop} {count : UInt64} {vec : List α} (readable : VecReadable each count vec)
    (emits : ∀ a, each a → Emits (body a) (emissions a) ()) :
    Emits (do
      nuAssert (count.toNat < SIZE_MAX)
      let _ ← bcAppendVarint count
      forEach body count.toNat vec
      return (0 : Int)) (.varint count :: (vec.take count.toNat).flatMap emissions) 0 := by
  rw [nuAssert_bind readable.small]
  have elements := emits_forEach readable.long fun a member => emits a (readable.each a member)
  exact (emits_bcAppendVarint count).requests.bind fun _ => elements.requests.last 0

theorem emits_bcAppendTxInputsSection {tx : BcTxInfo} (readable : InputsReadable tx) :
    Emits (bcAppendTxInputsSection tx) (inputsEmissions tx) 0 :=
  emits_section readable fun _ inside => (emits_bcAppendTxInput inside).requests.last ()

theorem emits_bcAppendTxOutputsSection {tx : BcTxInfo} (readable : OutputsReadable tx) :
    Emits (bcAppendTxOutputsSection tx) (outputsEmissions tx) 0 :=
  emits_section readable fun _ inside => (emits_bcAppendTxOutput inside).requests.last ()

theorem emits_appendWitnessField {f : BcWitnessField} (readable : FieldReadable f) :
    Emits (appendWitnessField f) (fieldEmissions f) () := by
  unfold appendWitnessField
  rw [nuAssert_bind readable.small, nuAssert_bind readable.data]
  exact (emits_bcAppendVarint f.size).requests.bind fun _ =>
    (answers_bcAppendBytes readable.long).requests.last ()

theorem emits_appendWitness {inCount : UInt64} {w : BcWitness}
    (readable : WitnessReadable inCount w) :
    Emits (appendWitness inCount w) (witnessEmissions inCount w) () := by
  have items : Emits (if w.stackItems ≠ 0 then do
        nuAssert (w.items ≠ none)
        forEach appendWitnessField inCount.toNat w.entries
      else pure ())
      (if w.stackItems ≠ 0 then (w.entries.take inCount.toNat).flatMap fieldEmissions else [])
      () := by
    by_cases filled : w.stackItems ≠ 0
    · have items := readable.filled filled
      rw [if_pos filled, if_pos filled, nuAssert_bind items.items]
      exact emits_forEach items.long fun f member => emits_appendWitnessField (items.each f member)
    · rw [if_neg filled, if_neg filled]
      exact emits_pure ()
  unfold appendWitness
  rw [nuAssert_bind readable.small]
  exact (emits_bcAppendVarint w.stackItems).requests.bind fun _ => items

theorem emits_bcAppendTxWitnessesSection {tx : BcTxInfo} (readable : WitnessesReadable tx) :
    Emits (bcAppendTxWitnessesSection tx) (witnessesEmissions tx) 0 :=
  emits_section readable fun _ inside => emits_appendWitness inside

theorem emits_bcAppendTxLegacy {tx : BcTxInfo} (readable : LegacyReadable tx) :
    Emits (bcAppendTxLegacy tx) (legacyEmissions tx) 0 :=
  (emits_appendInteger 3 tx.version.toNat).requests.bind fun _ =>
    (emits_bcAppendTxInputsSection readable.inputs).requests.bind fun _ =>
      (emits_bcAppendTxOutputsSection readable.outputs).requests.bind fun _ =>
        (emits_appendInteger 3 tx.lockTime.toNat).requests.last 0

theorem requests_byte (byte : UInt8) : Requests (bcAppendBytes [byte] 1) [.checked [byte]] := by
  have inside : (1 : UInt64).toNat ≤ [byte].length := Nat.le_refl 1
  exact (answers_bcAppendBytes inside).requests

theorem emits_bcAppendTxSegwit {tx : BcTxInfo} (readable : LegacyReadable tx)
    (witnesses : WitnessesReadable tx) :
    Emits (bcAppendTxSegwit tx) (segwitEmissions tx) 0 :=
  (emits_appendInteger 3 tx.version.toNat).requests.bind fun _ =>
    (requests_byte tx.marker).bind fun _ => (requests_byte tx.flags).bind fun _ =>
      (emits_bcAppendTxInputsSection readable.inputs).requests.bind fun _ =>
        (emits_bcAppendTxOutputsSection readable.outputs).requests.bind fun _ =>
          (emits_bcAppendTxWitnessesSection witnesses).requests.bind fun _ =>
            (emits_appendInteger 3 tx.lockTime.toNat).requests.last 0

theorem emits_bcAppendTransaction {tx : BcTxInfo} (readable : TransactionReadable tx) :
    Emits (bcAppendTransaction tx) (transactionEmissions tx) 0 := by
  unfold bcAppendTransaction transactionEmissions
  by_cases segwit : tx.flags ≠ 0
  · rw [if_pos segwit, if_pos segwit]
    exact emits_bcAppendTxSegwit readable.toLegacyReadable (readable.witnesses segwit)
  · rw [if_neg segwit, if_neg segwit]
    exact emits_bcAppendTxLegacy readable.toLegacyReadable

/-! ## The result -/

/-- 0 is returned exactly where everything is appended, and nothing is written through NULL. -/
def StatusRight (encoder : Encoder Int) (mem : Allocator) (buf : Buffer) : Prop :=
  ∃ code ret ec after, Writes encoder (some code) ret ∧ encoder mem buf = some (ec, after) ∧
    (ec = 0 ↔ after.bytes = buf.bytes ++ code)

theorem StatusRight.of_needs {encoder : Encoder Int} {mem : Allocator} {buf : Buffer} {P : Prop}
    (right : StatusRight encoder mem buf) (needs : Needs encoder P) : P := by
  obtain ⟨code, ret, ec, after, writes, -, -⟩ := right
  exact needs.holds writes

theorem Emits.statusRight_iff {encoder : Encoder Int} {emissions : List Emission}
    (emits : Emits encoder emissions 0) (mem : Allocator) (buf : Buffer) :
    StatusRight encoder mem buf ↔ Served mem buf.calls emissions := by
  rw [← emit_all_iff]
  constructor
  · rintro ⟨code, ret, ec, after, writes, run, right⟩
    rw [emits] at run
    obtain ⟨after', emitted, same⟩ := Option.map_eq_some_iff.mp run
    cases same
    rw [Option.some.inj (emits.writes.unique writes)]
    exact ⟨after, emitted, right.mp rfl⟩
  · rintro ⟨after, emitted, all⟩
    refine ⟨encoding emissions, 0, 0, after, emits.writes, ?_, ?_⟩
    · rw [emits, emitted]
      rfl
    · exact iff_of_true rfl all

theorem Answers.writes {encoder : Encoder Int} {value : List UInt8}
    (answers : Answers encoder value) :
    Writes encoder (some value) 1 := fun fresh buf => ⟨buf.calls + 1, answers (served fresh) buf⟩

/-- The result is the wrong way round. -/
theorem Answers.statusRight_iff {encoder : Encoder Int} {value : List UInt8}
    (answers : Answers encoder value) (mem : Allocator) (buf : Buffer) :
    StatusRight encoder mem buf ↔ value = [] ∧ mem buf.calls = none := by
  have run := answers mem buf
  rw [emit_singleton, Emission.run, Option.map_some] at run
  constructor
  · rintro ⟨code, ret, ec, after, writes, run', right⟩
    cases Option.some.inj (answers.writes.unique writes)
    cases run.symm.trans run'
    cases granted : mem buf.calls with
    | none =>
      rw [granted] at right
      have same := right.mp rfl
      exact ⟨(List.append_right_eq_self.mp same.symm), rfl⟩
    | some fresh =>
      rw [granted] at right
      cases right.mpr rfl
  · rintro ⟨rfl, refused⟩
    refine ⟨[], 1, _, _, answers.writes, run, ?_⟩
    simp [refused]

/-- An encoder with its arguments. -/
inductive Append where
  | varint (val : UInt64)
  | i16 (val : Int16)
  | u16 (val : UInt16)
  | i32 (val : Int32)
  | u32 (val : UInt32)
  | i64 (val : Int64)
  | u64 (val : UInt64)
  | bytes (dat : List UInt8) (num : UInt64)
  | hash32 (val : BcHash32)
  | blockHeader (hdr : BcBlockHeader)
  | txInput (txi : BcTxInput)
  | txOutput (txo : BcTxOutput)
  | txInputsSection (tx : BcTxInfo)
  | txOutputsSection (tx : BcTxInfo)
  | txWitnessesSection (tx : BcTxInfo)
  | transaction (tx : BcTxInfo)

def Append.encoder : Append → Encoder Int
  | .varint val => bcAppendVarint val
  | .i16 val => bcAppendI16 val
  | .u16 val => bcAppendU16 val
  | .i32 val => bcAppendI32 val
  | .u32 val => bcAppendU32 val
  | .i64 val => bcAppendI64 val
  | .u64 val => bcAppendU64 val
  | .bytes dat num => bcAppendBytes dat num
  | .hash32 val => bcAppendHash32 val
  | .blockHeader hdr => bcAppendBlockHeader hdr
  | .txInput txi => bcAppendTxInput txi
  | .txOutput txo => bcAppendTxOutput txo
  | .txInputsSection tx => bcAppendTxInputsSection tx
  | .txOutputsSection tx => bcAppendTxOutputsSection tx
  | .txWitnessesSection tx => bcAppendTxWitnessesSection tx
  | .transaction tx => bcAppendTransaction tx

/-- The assertions hold, the arrays reach as far as they are read, and the requests are served;
blocks of bytes are another matter. -/
def Append.RightWhen (mem : Allocator) (calls : Nat) : Append → Prop
  | .varint val => Served mem calls [.varint val]
  | .i16 val => Served mem calls [.integer 1 val.toUInt16.toNat]
  | .u16 val => Served mem calls [.integer 1 val.toNat]
  | .i32 val => Served mem calls [.integer 3 val.toUInt32.toNat]
  | .u32 val => Served mem calls [.u32 val]
  | .i64 val => Served mem calls [.integer 7 val.toUInt64.toNat]
  | .u64 val => Served mem calls [.u64 val]
  | .bytes _ num => num = 0 ∧ mem calls = none
  | .hash32 _ => False
  | .blockHeader _ => False
  | .txInput txi => InputReadable txi ∧ Served mem calls (inputEmissions txi)
  | .txOutput txo => OutputReadable txo ∧ Served mem calls (outputEmissions txo)
  | .txInputsSection tx => InputsReadable tx ∧ Served mem calls (inputsEmissions tx)
  | .txOutputsSection tx => OutputsReadable tx ∧ Served mem calls (outputsEmissions tx)
  | .txWitnessesSection tx => WitnessesReadable tx ∧ Served mem calls (witnessesEmissions tx)
  | .transaction tx => TransactionReadable tx ∧ Served mem calls (transactionEmissions tx)

/-- An encoder that returns 0 is right exactly where it comes to its end and
its requests are served. -/
theorem statusRight_iff_readable {encoder : Encoder Int} {emissions : List Emission}
    {readable : Prop} (needs : Needs encoder readable)
    (emits : readable → Emits encoder emissions 0) (mem : Allocator) (buf : Buffer) :
    StatusRight encoder mem buf ↔ readable ∧ Served mem buf.calls emissions := by
  constructor
  · intro right
    have long := right.of_needs needs
    exact ⟨long, ((emits long).statusRight_iff mem buf).mp right⟩
  · rintro ⟨long, granted⟩
    exact ((emits long).statusRight_iff mem buf).mpr granted

theorem bcAppendBytes_statusRight_iff (dat : List UInt8) (num : UInt64) (mem : Allocator)
    (buf : Buffer) :
    StatusRight (bcAppendBytes dat num) mem buf ↔ num = 0 ∧ mem buf.calls = none := by
  have bound := num.toNat_lt
  have empty : num.toNat = 0 ↔ num = 0 := by rw [← UInt64.toNat_inj]; rfl
  constructor
  · intro right
    have inside := right.of_needs (needs_bcAppendBytes dat num)
    obtain ⟨nothing, refused⟩ := ((answers_bcAppendBytes inside).statusRight_iff mem buf).mp right
    have length := congrArg List.length nothing
    rw [List.length_take_of_le inside] at length
    exact ⟨empty.mp length, refused⟩
  · rintro ⟨rfl, refused⟩
    exact ((answers_bcAppendBytes (Nat.zero_le _)).statusRight_iff mem buf).mpr
      ⟨List.take_zero, refused⟩

/-- The result of an encoder is right exactly where everything asked for is served, and for blocks
of bytes almost never. -/
theorem append_statusRight_iff (append : Append) (mem : Allocator) (buf : Buffer) :
    StatusRight append.encoder mem buf ↔ append.RightWhen mem buf.calls := by
  cases append with
  | varint val => exact (emits_bcAppendVarint val).statusRight_iff mem buf
  | i16 val => exact (emits_appendInteger 1 val.toUInt16.toNat).statusRight_iff mem buf
  | u16 val => exact (emits_appendInteger 1 val.toNat).statusRight_iff mem buf
  | i32 val => exact (emits_appendInteger 3 val.toUInt32.toNat).statusRight_iff mem buf
  | u32 val => exact (emits_appendInteger 3 val.toNat).statusRight_iff mem buf
  | i64 val => exact (emits_appendInteger 7 val.toUInt64.toNat).statusRight_iff mem buf
  | u64 val => exact (emits_appendInteger 7 val.toNat).statusRight_iff mem buf
  | bytes dat num => exact bcAppendBytes_statusRight_iff dat num mem buf
  | hash32 val =>
    refine ((answers_bcAppendHash32 val).statusRight_iff mem buf).trans (iff_false_intro ?_)
    rintro ⟨empty, -⟩
    have length := congrArg List.length empty
    simp at length
  | blockHeader hdr =>
    refine ((answers_bcAppendBlockHeader hdr).statusRight_iff mem buf).trans (iff_false_intro ?_)
    rintro ⟨empty, -⟩
    have length := congrArg List.length empty
    simp [BcBlockHeader.bytes_length] at length
  | txInput txi =>
    exact statusRight_iff_readable (needs_bcAppendTxInput txi) emits_bcAppendTxInput mem buf
  | txOutput txo =>
    exact statusRight_iff_readable (needs_bcAppendTxOutput txo) emits_bcAppendTxOutput mem buf
  | txInputsSection tx =>
    exact statusRight_iff_readable (needs_bcAppendTxInputsSection tx)
      emits_bcAppendTxInputsSection mem buf
  | txOutputsSection tx =>
    exact statusRight_iff_readable (needs_bcAppendTxOutputsSection tx)
      emits_bcAppendTxOutputsSection mem buf
  | txWitnessesSection tx =>
    exact statusRight_iff_readable (needs_bcAppendTxWitnessesSection tx)
      emits_bcAppendTxWitnessesSection mem buf
  | transaction tx =>
    exact statusRight_iff_readable (needs_bcAppendTransaction tx) emits_bcAppendTransaction mem buf

/-- A hash that is appended as it should be, and the result is 1. -/
theorem bcAppendHash32_status :
    ¬ ∀ (append : Append) mem buf, StatusRight append.encoder mem buf := by
  intro always
  have right := always (.hash32 (Vector.replicate 32 0)) (served fun _ _ => 0) ⟨[], 0⟩
  obtain ⟨-, refused⟩ :=
    ((answers_bcAppendHash32 (Vector.replicate 32 0)).statusRight_iff _ _).mp right
  cases refused

end NuLab.Transaction
