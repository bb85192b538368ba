import NuLab.Transaction.Legacy

/-! # The segregated witness encoding

The source puts a count in front of the witnesses, which the format does not have,
and takes it for the number of items of every stack, too.  Both encodings are read
from the left: the extra count is taken for the first stack size, that one for the
size of an item, and so on to the end.
-/

namespace NuLab.Transaction

open NuLab.Bytes NuLab.Parse

/-! ## BIP144 -/

def compactSize (val : UInt64) : List UInt8 :=
  if val < 0xFD then [val.toUInt8]
  else if val ≤ 0xFFFF then 0xFD :: toLE 2 val.toNat
  else if val ≤ 0xFFFFFFFF then 0xFE :: toLE 4 val.toNat
  else 0xFF :: toLE 8 val.toNat

def bip144Item (f : BcWitnessField) : List UInt8 := compactSize f.size ++ f.bytes

def bip144Stack (w : BcWitness) : List UInt8 :=
  compactSize w.stackItems ++ w.entries.flatMap bip144Item

def bip144 (tx : BcTxInfo) : List UInt8 :=
  toLE 4 tx.version.toNat ++ ([tx.marker] ++ ([tx.flags] ++
    (inputsWith compactSize tx ++ (outputsWith compactSize tx ++
      (tx.witnessVec.flatMap bip144Stack ++ toLE 4 tx.lockTime.toNat)))))

structure SegwitFields extends NonWitness where
  marker : UInt8
  flags : UInt8
  witnesses : List (List (List UInt8))
deriving DecidableEq

def segwitFields (tx : BcTxInfo) : SegwitFields :=
  { nonWitness tx with
    marker := tx.marker
    flags := tx.flags
    witnesses := tx.witnessVec.map fun w => w.entries.map BcWitnessField.bytes }

/-- The witnesses, too, have the lengths that their counts state. -/
structure SegwitCounted (tx : BcTxInfo) : Prop extends Counted tx where
  witnesses : tx.witnessVec.length = tx.inCount.toNat
  stackSizes : ∀ w ∈ tx.witnessVec, w.entries.length = w.stackItems.toNat
  itemSizes : ∀ w ∈ tx.witnessVec, ∀ f ∈ w.entries, f.bytes.length = f.size.toNat

def readByte : Parser UInt8 UInt8 := andThen (number 1) fun val => done (UInt8.ofNat val)

def readBip144 : Parser UInt8 SegwitFields :=
  andThen readU32 fun version => andThen readByte fun marker => andThen readByte fun flags =>
    andThen (readCounted readInput) fun inputs => andThen (readCounted readOutput) fun outputs =>
      andThen (many (readCounted readSized) inputs.length) fun witnesses =>
        andThen readU32 fun lockTime =>
        done { version, inputs, outputs, lockTime, marker, flags, witnesses }

theorem reads_compactSize (val : UInt64) : Reads readVarint (compactSize val) val :=
  reads_widths UInt64.le_iff_toNat_le.mp UInt64.le_iff_toNat_le.mp

theorem reads_readByte (val : UInt8) : Reads readByte [val] val := by
  have reads := (reads_number 1 val.toNat_lt).map UInt8.ofNat
  rwa [UInt8.ofNat_toNat, toLE, toLE, UInt8.ofNat_toNat] at reads

theorem reads_bip144Item (f : BcWitnessField) (counted : f.bytes.length = f.size.toNat) :
    Reads readSized (bip144Item f) f.bytes := reads_readSized reads_compactSize counted

theorem reads_readBip144 {tx : BcTxInfo} (counted : SegwitCounted tx) :
    Reads readBip144 (bip144 tx) (segwitFields tx) := by
  have witnesses : Reads (many (readCounted readSized) (tx.inVec.map inputFields).length)
      (tx.witnessVec.flatMap bip144Stack)
      (tx.witnessVec.map fun w => w.entries.map BcWitnessField.bytes) := by
    -- the format has no count for the witnesses: there is one for every input
    rw [List.length_map, counted.inputs, ← counted.witnesses]
    refine reads_many tx.witnessVec fun w member => ?_
    refine reads_readCounted reads_compactSize (counted.stackSizes w member) fun f inside => ?_
    exact reads_bip144Item f (counted.itemSizes w member f inside)
  exact (reads_readU32 tx.version).andThen
    ((reads_readByte tx.marker).andThen ((reads_readByte tx.flags).andThen
    ((reads_inputs reads_compactSize counted.toCounted).andThen
      ((reads_outputs reads_compactSize counted.toCounted).andThen
        (witnesses.andThen ((reads_readU32 tx.lockTime).map _))))))

/-! ## What the source appends -/

def itemCode (f : BcWitnessField) : List UInt8 := varint f.size ++ f.bytes

/-- One stack; the loop over its items counts up to `inCount`. -/
def stackCode (inCount : UInt64) (w : BcWitness) : Option (List UInt8) :=
  (if w.stackItems ≠ 0 then eachCode (fun f => some (itemCode f)) inCount.toNat
    w.entries else some []).map
    (varint w.stackItems ++ ·)

def stacksCode (tx : BcTxInfo) : Option (List UInt8) :=
  eachCode (stackCode tx.inCount) tx.inCount.toNat tx.witnessVec

def segwitCode (tx : BcTxInfo) : Option (List UInt8) :=
  (stacksCode tx).map fun witnesses => toLE 4 tx.version.toNat ++ ([tx.marker] ++ ([tx.flags] ++
    (inputsWith varint tx ++ (outputsWith varint tx ++
      ((varint tx.inCount ++ witnesses) ++ toLE 4 tx.lockTime.toNat)))))

theorem writes_appendWitnessField {f : BcWitnessField} (counted : f.bytes.length = f.size.toNat)
    (readable : FieldReadable f) : Writes (appendWitnessField f) (some (itemCode f)) () := by
  unfold appendWitnessField
  rw [nuAssert_bind readable.small, nuAssert_bind readable.data]
  exact (writes_bcAppendVarint f.size).append ((writes_counted counted).last ())

theorem writes_appendWitness {inCount : UInt64} {w : BcWitness}
    (counted : ∀ f ∈ w.entries, f.bytes.length = f.size.toNat)
    (readable : WitnessReadable inCount w) :
    Writes (appendWitness inCount w) (stackCode inCount w) () := by
  unfold appendWitness stackCode
  rw [nuAssert_bind readable.small]
  refine (writes_bcAppendVarint w.stackItems).seq ?_
  by_cases filled : w.stackItems ≠ 0
  · have items := readable.filled filled
    rw [if_pos filled, if_pos filled, nuAssert_bind items.items]
    refine writes_forEach inCount.toNat w.entries fun f member => ?_
    exact writes_appendWitnessField (counted f (List.mem_of_mem_take member)) (items.each f member)
  · rw [if_neg filled, if_neg filled]
    exact writes_pure ()

theorem writes_bcAppendTxWitnessesSection {tx : BcTxInfo}
    (itemSizes : ∀ w ∈ tx.witnessVec, ∀ f ∈ w.entries, f.bytes.length = f.size.toNat)
    (readable : WitnessesReadable tx) :
    Writes (bcAppendTxWitnessesSection tx) ((stacksCode tx).map (varint tx.inCount ++ ·)) 0 := by
  unfold bcAppendTxWitnessesSection
  rw [nuAssert_bind readable.small]
  refine (writes_bcAppendVarint tx.inCount).seq (Writes.last (a := ()) ?_ 0)
  refine writes_forEach tx.inCount.toNat tx.witnessVec fun w member => ?_
  exact writes_appendWitness (itemSizes w (List.mem_of_mem_take member)) (readable.each w member)

theorem writes_bcAppendTransaction {tx : BcTxInfo} (segwit : tx.flags ≠ 0)
    (counted : SegwitCounted tx) (readable : TransactionReadable tx) :
    Writes (bcAppendTransaction tx) (segwitCode tx) 0 := by
  have marker : Writes (bcAppendBytes [tx.marker] 1) (some [tx.marker]) 1 := writes_counted rfl
  have flags : Writes (bcAppendBytes [tx.flags] 1) (some [tx.flags]) 1 := writes_counted rfl
  have inputs := writes_bcAppendTxInputsSection counted.toCounted readable.inputs
  have outputs := writes_bcAppendTxOutputsSection counted.toCounted readable.outputs
  have witnesses :=
    writes_bcAppendTxWitnessesSection counted.itemSizes (readable.witnesses segwit)
  have last := (writes_bcAppendU32 tx.lockTime).last (0 : Int)
  have all : Writes (bcAppendTxSegwit tx) _ 0 := (writes_bcAppendU32 tx.version).seq
    (marker.seq (flags.seq (inputs.seq (outputs.seq (witnesses.bind last)))))
  rw [bcAppendTransaction, if_pos segwit, segwitCode]
  cases found : stacksCode tx with
  | none =>
    rw [found] at all
    exact all
  | some stackBytes =>
    rw [found] at all
    exact all

/-! ## The extra count -/

/-- What the format asks for, whatever the buffer holds and the allocator gives. -/
def AppendsBip144 (fresh : Nat → Nat → UInt8) (buf : Buffer) (tx : BcTxInfo) : Prop :=
  ∃ calls, bcAppendTransaction tx (served fresh) buf = some (0, ⟨buf.bytes ++ bip144 tx, calls⟩)

theorem AppendsBip144.stacks {fresh : Nat → Nat → UInt8} {buf : Buffer} {tx : BcTxInfo}
    (segwit : tx.flags ≠ 0) (counted : SegwitCounted tx) (appends : AppendsBip144 fresh buf tx) :
    ∃ stackBytes, stacksCode tx = some stackBytes ∧
      varint tx.inCount ++ stackBytes = tx.witnessVec.flatMap bip144Stack := by
  obtain ⟨calls, run⟩ := appends
  -- the run has come to its end
  have readable := needs_bcAppendTransaction tx fresh buf (by rw [run]; rfl)
  obtain ⟨calls', run'⟩ := writes_bcAppendTransaction segwit counted readable fresh buf
  rw [run, segwitCode] at run'
  cases found : stacksCode tx with
  | none => simp [found] at run'
  | some stackBytes =>
    rw [found, Option.map_some, Option.map_some, Option.some.injEq, Prod.mk.injEq, Buffer.mk.injEq,
      List.append_cancel_left_eq] at run'
    obtain ⟨-, same, -⟩ := run'
    refine ⟨stackBytes, rfl, ?_⟩
    rw [bip144, List.append_cancel_left_eq, List.append_cancel_left_eq,
      List.append_cancel_left_eq] at same
    -- both forms of the counts are read alike, so the inputs and the outputs are cancelled by
    -- reading them
    have inputs := (reads_inputs reads_compactSize counted.toCounted).cancel
      (reads_inputs reads_readVarint counted.toCounted) same
    have outputs := (reads_outputs reads_compactSize counted.toCounted).cancel
      (reads_outputs reads_readVarint counted.toCounted) inputs.2
    exact (List.append_cancel_right outputs.2).symm

end NuLab.Transaction
