import NuLab.Lib.Parse
import NuLab.Sha256.Digest
import NuLab.Transaction.Readable

/-! # The legacy encoding and transaction ids

The parser below reads back every field of a transaction except its witnesses from
the bytes that `bc_append_tx_legacy` appends.  These bytes, which are hashed for
the id, therefore determine the fields and are determined by them.
-/

namespace NuLab.Transaction

open NuLab.Bytes NuLab.Dca NuLab.Parse

/-! ## Transactions without their witnesses -/

structure InputFields where
  txid : BcHash32
  vout : UInt32
  scriptSig : List UInt8
  sequence : UInt32
deriving DecidableEq

structure OutputFields where
  amount : UInt64
  scriptPubKey : List UInt8
deriving DecidableEq

structure NonWitness where
  version : UInt32
  inputs : List InputFields
  outputs : List OutputFields
  lockTime : UInt32
deriving DecidableEq

def inputFields (txi : BcTxInput) : InputFields := ⟨txi.txid, txi.vout, txi.scriptSig, txi.sequence⟩

def outputFields (txo : BcTxOutput) : OutputFields := ⟨txo.amount, txo.scriptPubKey⟩

def nonWitness (tx : BcTxInfo) : NonWitness :=
  ⟨tx.version, tx.inVec.map inputFields, tx.outVec.map outputFields, tx.lockTime⟩

/-- The arrays have the lengths that their counts state. -/
structure Counted (tx : BcTxInfo) : Prop where
  inputs : tx.inVec.length = tx.inCount.toNat
  outputs : tx.outVec.length = tx.outCount.toNat
  scriptSigs : ∀ txi ∈ tx.inVec, txi.scriptSig.length = txi.scriptSigSize.toNat
  scriptPubKeys : ∀ txo ∈ tx.outVec, txo.scriptPubKey.length = txo.scriptPubKeySize.toNat

/-! ## What the encoders append -/

/-! The form of the counts and sizes is a parameter: the form of the source is not that of the
format. -/

def inputWith (size : UInt64 → List UInt8) (txi : BcTxInput) : List UInt8 :=
  txi.txid.toList ++ (toLE 4 txi.vout.toNat ++
    (size txi.scriptSigSize ++ (txi.scriptSig ++ toLE 4 txi.sequence.toNat)))

def outputWith (size : UInt64 → List UInt8) (txo : BcTxOutput) : List UInt8 :=
  toLE 8 txo.amount.toNat ++ (size txo.scriptPubKeySize ++ txo.scriptPubKey)

def inputsWith (size : UInt64 → List UInt8) (tx : BcTxInfo) : List UInt8 :=
  size tx.inCount ++ tx.inVec.flatMap (inputWith size)

def outputsWith (size : UInt64 → List UInt8) (tx : BcTxInfo) : List UInt8 :=
  size tx.outCount ++ tx.outVec.flatMap (outputWith size)

def legacyCode (tx : BcTxInfo) : List UInt8 :=
  toLE 4 tx.version.toNat ++
    (inputsWith varint tx ++ (outputsWith varint tx ++ toLE 4 tx.lockTime.toNat))

theorem writes_bcAppendTxInput {txi : BcTxInput}
    (counted : txi.scriptSig.length = txi.scriptSigSize.toNat) (readable : InputReadable txi) :
    Writes (bcAppendTxInput txi) (some (inputWith varint txi)) 0 := by
  unfold bcAppendTxInput inputWith
  refine (writes_bcAppendHash32 txi.txid).append ((writes_bcAppendU32 txi.vout).append
    ((writes_bcAppendVarint txi.scriptSigSize).append ?_))
  by_cases script : txi.scriptSigSize ≠ 0
  · rw [if_pos script, nuAssert_bind readable.small]
    exact (writes_counted counted).append ((writes_bcAppendU32 txi.sequence).last 0)
  · rw [if_neg script, counted_empty counted script]
    exact (writes_bcAppendU32 txi.sequence).last 0

theorem writes_bcAppendTxOutput {txo : BcTxOutput}
    (counted : txo.scriptPubKey.length = txo.scriptPubKeySize.toNat)
    (readable : OutputReadable txo) :
    Writes (bcAppendTxOutput txo) (some (outputWith varint txo)) 0 := by
  unfold bcAppendTxOutput outputWith
  refine (writes_bcAppendU64 txo.amount).append
    ((writes_bcAppendVarint txo.scriptPubKeySize).append ?_)
  by_cases script : txo.scriptPubKeySize ≠ 0
  · rw [if_pos script, nuAssert_bind readable.small]
    exact (writes_counted counted).last 0
  · rw [if_neg script, counted_empty counted script]
    exact writes_pure 0

/-- Of an array that has the length its count states, every element is read. -/
theorem VecReadable.every {α : Type} {each : α → Prop} {count : UInt64} {vec : List α}
    (readable : VecReadable each count vec) (counted : vec.length = count.toNat) :
    ∀ a ∈ vec, each a := by
  intro a member
  apply readable.each
  rwa [← counted, List.take_length]

theorem writes_bcAppendTxInputsSection {tx : BcTxInfo} (counted : Counted tx)
    (readable : InputsReadable tx) :
    Writes (bcAppendTxInputsSection tx) (some (inputsWith varint tx)) 0 := by
  unfold bcAppendTxInputsSection inputsWith
  rw [nuAssert_bind readable.small]
  refine (writes_bcAppendVarint tx.inCount).append (Writes.last (writes_all counted.inputs ?_) 0)
  intro txi member
  have inside := readable.every counted.inputs txi member
  exact (writes_bcAppendTxInput (counted.scriptSigs txi member) inside).last ()

theorem writes_bcAppendTxOutputsSection {tx : BcTxInfo} (counted : Counted tx)
    (readable : OutputsReadable tx) :
    Writes (bcAppendTxOutputsSection tx) (some (outputsWith varint tx)) 0 := by
  unfold bcAppendTxOutputsSection outputsWith
  rw [nuAssert_bind readable.small]
  refine (writes_bcAppendVarint tx.outCount).append (Writes.last (writes_all counted.outputs ?_) 0)
  intro txo member
  have inside := readable.every counted.outputs txo member
  exact (writes_bcAppendTxOutput (counted.scriptPubKeys txo member) inside).last ()

theorem writes_bcAppendTxLegacy {tx : BcTxInfo} (counted : Counted tx)
    (readable : LegacyReadable tx) : Writes (bcAppendTxLegacy tx) (some (legacyCode tx)) 0 := by
  unfold bcAppendTxLegacy legacyCode
  exact (writes_bcAppendU32 tx.version).append
    ((writes_bcAppendTxInputsSection counted readable.inputs).append
      ((writes_bcAppendTxOutputsSection counted readable.outputs).append
        ((writes_bcAppendU32 tx.lockTime).last 0)))

/-! No assertion fails where the encoding itself is shorter than what they allow. -/

/-- Each element has its own part in what is appended for all of them, one byte at least. -/
theorem flatMap_lengths {α : Type} {code : α → List UInt8} {vec : List α}
    (nonempty : ∀ a ∈ vec, code a ≠ []) :
    vec.length ≤ (vec.flatMap code).length ∧
      ∀ a ∈ vec, (code a).length ≤ (vec.flatMap code).length := by
  induction vec with
  | nil => exact ⟨Nat.le_refl 0, fun a member => by cases member⟩
  | cons first vec inductionHypothesis =>
    obtain ⟨total, each⟩ :=
      inductionHypothesis fun a member => nonempty a (List.mem_cons_of_mem first member)
    have positive := List.length_pos_iff.mpr (nonempty first List.mem_cons_self)
    rw [List.flatMap_cons, List.length_append, List.length_cons]
    refine ⟨by omega, fun a member => ?_⟩
    cases member with
    | head => exact Nat.le_add_right _ _
    | tail _ member => exact Nat.le_trans (each a member) (Nat.le_add_left _ _)

theorem vecReadable_of_short {α : Type} {each : α → Prop} (code : α → List UInt8) {count : UInt64}
    {vec : List α} (counted : vec.length = count.toNat) (nonempty : ∀ a ∈ vec, code a ≠ [])
    (readable : ∀ a ∈ vec, (code a).length < SIZE_MAX → each a)
    (short : (vec.flatMap code).length < SIZE_MAX) : VecReadable each count vec := by
  obtain ⟨total, parts⟩ := flatMap_lengths nonempty
  refine ⟨by omega, Nat.le_of_eq counted.symm, fun a member => ?_⟩
  have inside := List.mem_of_mem_take member
  exact readable a inside (Nat.lt_of_le_of_lt (parts a inside) short)

theorem bytesReadable_of_short {size : UInt64} {script : List UInt8}
    (counted : script.length = size.toNat) (short : script.length < SIZE_MAX) :
    BytesReadable size script := ⟨counted ▸ short, Nat.le_of_eq counted.symm⟩

theorem legacyReadable_of_short {tx : BcTxInfo} (counted : Counted tx)
    (short : (legacyCode tx).length < SIZE_MAX) : LegacyReadable tx := by
  simp only [legacyCode, inputsWith, outputsWith, List.length_append] at short
  constructor
  · refine vecReadable_of_short (inputWith varint) counted.inputs ?_ ?_ (by omega)
    · intro txi _
      simp [inputWith]
    · intro txi member inside
      simp only [inputWith, List.length_append] at inside
      exact bytesReadable_of_short (counted.scriptSigs txi member) (by omega)
  · refine vecReadable_of_short (outputWith varint) counted.outputs ?_ ?_ (by omega)
    · intro txo _
      simp [outputWith, toLE]
    · intro txo member inside
      simp only [outputWith, List.length_append] at inside
      exact bytesReadable_of_short (counted.scriptPubKeys txo member) (by omega)

/-! ## Reading the bytes back -/

def number (width : Nat) : Parser UInt8 Nat := andThen (take width) fun bytes => done (ofLE bytes)

def readU32 : Parser UInt8 UInt32 := andThen (number 4) fun val => done (UInt32.ofNat val)

def readU64 : Parser UInt8 UInt64 := andThen (number 8) fun val => done (UInt64.ofNat val)

def readHash : Parser UInt8 BcHash32 :=
  andThen (take 32) fun bytes => done (Vector.ofFn fun i => bytes.getD i 0)

/-- A variable-length integer of any of the four widths. -/
def readVarint : Parser UInt8 UInt64 := andThen (number 1) fun head =>
  if head < 0xFD then done (UInt64.ofNat head)
  else andThen (number (if head = 0xFD then 2 else if head = 0xFE then 4 else 8)) fun val =>
    done (UInt64.ofNat val)

def readSized : Parser UInt8 (List UInt8) := andThen readVarint fun size => take size.toNat

def readInput : Parser UInt8 InputFields :=
  andThen readHash fun txid => andThen readU32 fun vout => andThen readSized fun scriptSig =>
    andThen readU32 fun sequence => done ⟨txid, vout, scriptSig, sequence⟩

def readOutput : Parser UInt8 OutputFields :=
  andThen readU64 fun amount => andThen readSized fun scriptPubKey => done ⟨amount, scriptPubKey⟩

def readCounted {α : Type} (item : Parser UInt8 α) : Parser UInt8 (List α) :=
  andThen readVarint fun count => many item count.toNat

def readLegacy : Parser UInt8 NonWitness :=
  andThen readU32 fun version => andThen (readCounted readInput) fun inputs =>
    andThen (readCounted readOutput) fun outputs => andThen readU32 fun lockTime =>
      done ⟨version, inputs, outputs, lockTime⟩

theorem reads_number (width : Nat) {val : Nat} (fits : val < 256 ^ width) :
    Reads (number width) (toLE width val) val := by
  have reads := (reads_take (toLE_length width val)).map ofLE
  rwa [ofLE_toLE_of_lt fits] at reads

theorem reads_readU32 (val : UInt32) : Reads readU32 (toLE 4 val.toNat) val := by
  have reads := (reads_number 4 val.toNat_lt).map UInt32.ofNat
  rwa [UInt32.ofNat_toNat] at reads

theorem reads_readU64 (val : UInt64) : Reads readU64 (toLE 8 val.toNat) val := by
  have reads := (reads_number 8 val.toNat_lt).map UInt64.ofNat
  rwa [UInt64.ofNat_toNat] at reads

theorem reads_readHash (hash : BcHash32) : Reads readHash hash.toList hash := by
  have reads := (reads_take hash.length_toList).map fun bytes =>
    (Vector.ofFn fun i => bytes.getD i 0 : BcHash32)
  have same : (Vector.ofFn fun i => hash.toList.getD i 0 : BcHash32) = hash := by
    apply Vector.ext
    intro i inside
    simp
  rwa [same] at reads

theorem reads_marked {marker : UInt8} {width : Nat} {val : UInt64} (large : ¬ marker.toNat < 0xFD)
    (chosen : (if marker.toNat = 0xFD then 2 else if marker.toNat = 0xFE then 4 else 8) = width)
    (fits : val.toNat < 256 ^ width) : Reads readVarint (marker :: toLE width val.toNat) val := by
  have head : Reads (number 1) [marker] marker.toNat := by
    have reads := reads_number 1 marker.toNat_lt
    rwa [toLE, toLE, UInt8.ofNat_toNat] at reads
  have tail := (reads_number width fits).map UInt64.ofNat
  rw [UInt64.ofNat_toNat] at tail
  refine head.andThen ?_
  rw [if_neg large, chosen]
  exact tail

theorem reads_small {val : UInt64} (small : val < 0xFD) : Reads readVarint [val.toUInt8] val := by
  have bound : val.toNat < 0xFD := UInt64.lt_iff_toNat_lt.mp small
  have head : Reads (number 1) [val.toUInt8] val.toNat := reads_number 1 (by omega)
  have read : Reads readVarint ([val.toUInt8] ++ []) val := by
    refine head.andThen ?_
    rw [if_pos bound, UInt64.ofNat_toNat]
    exact reads_done val
  exact read

/-- Any choice between the widths is read back, as long as the value fits into the width chosen. -/
theorem reads_widths {val : UInt64} {three five : Prop} [Decidable three] [Decidable five]
    (fitsThree : three → val.toNat ≤ 0xFFFF) (fitsFive : five → val.toNat ≤ 0xFFFFFFFF) :
    Reads readVarint (if val < 0xFD then [val.toUInt8] else if three then 0xFD :: toLE 2 val.toNat
      else if five then 0xFE :: toLE 4 val.toNat else 0xFF :: toLE 8 val.toNat) val := by
  have bound := val.toNat_lt
  by_cases one : val < 0xFD
  · rw [if_pos one]
    exact reads_small one
  · rw [if_neg one]
    by_cases second : three
    · rw [if_pos second]
      have fits := fitsThree second
      exact reads_marked (by decide) rfl (by omega)
    · rw [if_neg second]
      by_cases third : five
      · rw [if_pos third]
        have fits := fitsFive third
        exact reads_marked (by decide) rfl (by omega)
      · rw [if_neg third]
        exact reads_marked (by decide) rfl (by omega)

theorem reads_readVarint (val : UInt64) : Reads readVarint (varint val) val := by
  apply reads_widths
  · intro three
    exact Nat.le_of_lt (UInt64.lt_iff_toNat_lt.mp three)
  · intro five
    exact Nat.le_of_lt (UInt64.lt_iff_toNat_lt.mp five)

section Sizes

variable {size : UInt64 → List UInt8} (sizes : ∀ val, Reads readVarint (size val) val)

include sizes

theorem reads_readSized {num : UInt64} {bytes : List UInt8} (counted : bytes.length = num.toNat) :
    Reads readSized (size num ++ bytes) bytes := (sizes num).andThen (reads_take counted)

theorem reads_readCounted {α σ : Type} {item : Parser UInt8 α} {code : σ → List UInt8}
    {value : σ → α} {count : UInt64} {vec : List σ} (counted : vec.length = count.toNat)
    (reads : ∀ s ∈ vec, Reads item (code s) (value s)) :
    Reads (readCounted item) (size count ++ vec.flatMap code) (vec.map value) := by
  have items := reads_many vec reads
  rw [counted] at items
  exact (sizes count).andThen items

theorem reads_readInput (txi : BcTxInput)
    (counted : txi.scriptSig.length = txi.scriptSigSize.toNat) :
    Reads readInput (inputWith size txi) (inputFields txi) := by
  rw [inputWith, ← List.append_assoc (size txi.scriptSigSize)]
  exact (reads_readHash txi.txid).andThen ((reads_readU32 txi.vout).andThen
    ((reads_readSized sizes counted).andThen ((reads_readU32 txi.sequence).map _)))

theorem reads_readOutput (txo : BcTxOutput)
    (counted : txo.scriptPubKey.length = txo.scriptPubKeySize.toNat) :
    Reads readOutput (outputWith size txo) (outputFields txo) :=
  (reads_readU64 txo.amount).andThen ((reads_readSized sizes counted).map _)

theorem reads_inputs {tx : BcTxInfo} (counted : Counted tx) :
    Reads (readCounted readInput) (inputsWith size tx) (tx.inVec.map inputFields) :=
  reads_readCounted sizes counted.inputs fun txi member =>
    reads_readInput sizes txi (counted.scriptSigs txi member)

theorem reads_outputs {tx : BcTxInfo} (counted : Counted tx) :
    Reads (readCounted readOutput) (outputsWith size tx) (tx.outVec.map outputFields) :=
  reads_readCounted sizes counted.outputs fun txo member =>
    reads_readOutput sizes txo (counted.scriptPubKeys txo member)

end Sizes

/-- The encoding is self-delimiting. -/
theorem reads_readLegacy {tx : BcTxInfo} (counted : Counted tx) :
    Reads readLegacy (legacyCode tx) (nonWitness tx) :=
  (reads_readU32 tx.version).andThen ((reads_inputs reads_readVarint counted).andThen
    ((reads_outputs reads_readVarint counted).andThen ((reads_readU32 tx.lockTime).map _)))

/-! ## The fields determine the bytes -/

def inputFieldsCode (fields : InputFields) : List UInt8 :=
  fields.txid.toList ++
    (toLE 4 fields.vout.toNat ++ (varint (UInt64.ofNat fields.scriptSig.length) ++
    (fields.scriptSig ++ toLE 4 fields.sequence.toNat)))

def outputFieldsCode (fields : OutputFields) : List UInt8 :=
  toLE 8 fields.amount.toNat ++
    (varint (UInt64.ofNat fields.scriptPubKey.length) ++ fields.scriptPubKey)

def nonWitnessCode (fields : NonWitness) : List UInt8 :=
  toLE 4 fields.version.toNat ++
    ((varint (UInt64.ofNat fields.inputs.length) ++ fields.inputs.flatMap inputFieldsCode) ++
      ((varint (UInt64.ofNat fields.outputs.length) ++ fields.outputs.flatMap outputFieldsCode) ++
        toLE 4 fields.lockTime.toNat))

theorem flatMap_fields {σ α : Type} {vec : List σ} {code : σ → List UInt8}
    {fieldsCode : α → List UInt8} {fields : σ → α}
    (same : ∀ s ∈ vec, code s = fieldsCode (fields s)) :
    vec.flatMap code = (vec.map fields).flatMap fieldsCode := by
  induction vec with
  | nil => rfl
  | cons first vec inductionHypothesis =>
    rw [List.flatMap_cons, List.map_cons, List.flatMap_cons, same first List.mem_cons_self,
      inductionHypothesis fun s member => same s (List.mem_cons_of_mem first member)]

theorem ofNat_length {σ : Type} {vec : List σ} {count : UInt64}
    (counted : vec.length = count.toNat) : UInt64.ofNat vec.length = count := by
  rw [counted, UInt64.ofNat_toNat]

theorem legacyCode_eq {tx : BcTxInfo} (counted : Counted tx) :
    legacyCode tx = nonWitnessCode (nonWitness tx) := by
  have inputs : tx.inVec.flatMap (inputWith varint) =
      (tx.inVec.map inputFields).flatMap inputFieldsCode := by
    refine flatMap_fields fun txi member => ?_
    rw [inputWith, inputFieldsCode, inputFields, ofNat_length (counted.scriptSigs txi member)]
  have outputs : tx.outVec.flatMap (outputWith varint) =
      (tx.outVec.map outputFields).flatMap outputFieldsCode := by
    refine flatMap_fields fun txo member => ?_
    rw [outputWith, outputFieldsCode, outputFields, ofNat_length (counted.scriptPubKeys txo member)]
  rw [legacyCode, inputsWith, outputsWith, inputs, outputs, nonWitnessCode, nonWitness]
  simp only [List.length_map, ofNat_length counted.inputs, ofNat_length counted.outputs]

/-! ## Transaction ids -/

/-- The bytes that `bc_tx_txid` hashes. -/
def hashedBytes (mem : Allocator) (tx : BcTxInfo) : Option (List UInt8) :=
  (txidMessage mem tx).map fun (_, message, size) => message.take size.toNat

theorem hashedBytes_eq {tx : BcTxInfo} (counted : Counted tx) (fresh : Nat → Nat → UInt8)
    (short : (legacyCode tx).length < 2 ^ 32) :
    txidMessage (served fresh) tx = some (0, legacyCode tx, UInt32.ofNat (legacyCode tx).length) ∧
      hashedBytes (served fresh) tx = some (legacyCode tx) := by
  have readable := legacyReadable_of_short counted (Nat.lt_trans short (by decide))
  obtain ⟨calls, run⟩ := writes_bcAppendTxLegacy counted readable fresh ⟨[], 0⟩
  have message : txidMessage (served fresh) tx =
      some (0, legacyCode tx, UInt32.ofNat (legacyCode tx).length) := by
    rw [txidMessage, run]
    rfl
  refine ⟨message, ?_⟩
  rw [hashedBytes, message, Option.map_some]
  show some ((legacyCode tx).take (UInt32.ofNat (legacyCode tx).length).toNat) = _
  rw [UInt32.toNat_ofNat_of_lt' short, List.take_length]

theorem bcTxTxid_eq {tx : BcTxInfo} (counted : Counted tx) (fresh : Nat → Nat → UInt8)
    (hash : BcHash32) (short : (legacyCode tx).length < 2 ^ 32) :
    bcTxTxid (served fresh) tx hash = some (0, Sha256.hash256 (legacyCode tx)) := by
  have size : (UInt32.ofNat (legacyCode tx).length).toNat = (legacyCode tx).length :=
    UInt32.toNat_ofNat_of_lt' short
  obtain ⟨sum, run, value⟩ :=
    Sha256.hash256Digest_spec (legacyCode tx) (UInt32.ofNat (legacyCode tx).length) hash
    (Nat.le_of_eq size)
  rw [size, List.take_length] at value
  rw [bcTxTxid, (hashedBytes_eq counted fresh short).1, Option.bind_eq_bind, Option.bind_some]
  simp only [if_true, run, Sha256.eq_hash256 value]

/-- The bytes hashed for an id are a self-delimiting encoding of everything but the witnesses. -/
theorem bcTxTxid_nonWitness (tx tx' : BcTxInfo) (counted : Counted tx) (counted' : Counted tx') :
    ((legacyCode tx).length < SIZE_MAX → ∀ fresh buf, ∃ calls,
        bcAppendTxLegacy tx (served fresh) buf = some (0, ⟨buf.bytes ++ legacyCode tx, calls⟩)) ∧
      (∀ rest, readLegacy (legacyCode tx ++ rest) = some (nonWitness tx, rest)) ∧
      ((legacyCode tx).length < 2 ^ 32 → (legacyCode tx').length < 2 ^ 32 → ∀ fresh fresh' hash,
        bcTxTxid (served fresh) tx hash = some (0, Sha256.hash256 (legacyCode tx)) ∧
        hashedBytes (served fresh) tx = some (legacyCode tx) ∧
        (hashedBytes (served fresh) tx = hashedBytes (served fresh') tx' ↔
          nonWitness tx = nonWitness tx')) := by
  refine ⟨fun short => writes_bcAppendTxLegacy counted (legacyReadable_of_short counted short),
    reads_readLegacy counted, ?_⟩
  intro short short' fresh fresh' hash
  have hashed := (hashedBytes_eq counted fresh short).2
  have hashed' := (hashedBytes_eq counted' fresh' short').2
  refine ⟨bcTxTxid_eq counted fresh hash short, hashed, ?_⟩
  rw [hashed, hashed', Option.some.injEq]
  constructor
  · intro same
    exact (reads_readLegacy counted).unique (same ▸ reads_readLegacy counted')
  · intro same
    rw [legacyCode_eq counted, legacyCode_eq counted', same]

/-- A coinbase transaction with one witness item of two bytes. -/
def coinbase : BcTxInfo where
  version := 1
  inCount := 1
  inVec :=
    [{ txid := Vector.replicate 32 0
       vout := 0xFFFFFFFF
       scriptSigSize := 3
       scriptSig := [2, 0x10, 0x27]
       sequence := 0xFFFFFFFF }]
  outCount := 1
  outVec := [{ amount := 5000000000, scriptPubKeySize := 1, scriptPubKey := [0x51] }]
  lockTime := 0
  marker := 0
  flags := 1
  witnessVec := [{ stackItems := 1, items := some [{ size := 2, data := some [7, 8] }] }]

theorem coinbase_counted : Counted coinbase where
  inputs := rfl
  outputs := rfl
  scriptSigs txi member := by
    rw [List.mem_singleton.mp member]
    rfl
  scriptPubKeys txo member := by
    rw [List.mem_singleton.mp member]
    rfl

/-- Without flags and witnesses it has the same id. -/
theorem bcTxTxid_nonWitness_coinbase :
    let stripped := { coinbase with flags := 0, witnessVec := [] }
    hashedBytes (served fun _ _ => 0) coinbase = hashedBytes (served fun _ _ => 0) stripped := by
  intro stripped
  have counted : Counted stripped :=
    ⟨rfl, rfl, coinbase_counted.scriptSigs, coinbase_counted.scriptPubKeys⟩
  obtain ⟨-, -, same⟩ := bcTxTxid_nonWitness coinbase stripped coinbase_counted counted
  exact (same (by decide) (by decide) _ _ (Vector.replicate 32 0)).2.2.mpr rfl

end NuLab.Transaction
