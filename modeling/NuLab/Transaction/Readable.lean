import NuLab.Transaction.Writes

/-! # What an encoder needs

With memory, an encoder comes to its end only if its assertions hold and its arrays
reach as far as they are read.  The loop over the items of a stack reads as many of
them as there are inputs.
-/

namespace NuLab.Transaction

open NuLab.Dca

/-! ## Sizes, pointers and arrays -/

/-- The size of an empty script is not asserted, but small. -/
@[mk_iff]
structure BytesReadable (size : UInt64) (dat : List UInt8) : Prop where
  small : size.toNat < SIZE_MAX
  long : size.toNat ≤ dat.length

/-- The first `count` elements of an array are read. -/
@[mk_iff]
structure VecReadable {α : Type} (readable : α → Prop) (count : UInt64) (vec : List α) : Prop where
  small : count.toNat < SIZE_MAX
  long : count.toNat ≤ vec.length
  each : ∀ a ∈ vec.take count.toNat, readable a

@[mk_iff]
structure FieldReadable (f : BcWitnessField) : Prop extends BytesReadable f.size f.bytes where
  data : f.data ≠ none

/-- The number of items that is read is that of the inputs. -/
@[mk_iff]
structure ItemsReadable (inCount : UInt64) (w : BcWitness) : Prop where
  items : w.items ≠ none
  long : inCount.toNat ≤ w.entries.length
  each : ∀ f ∈ w.entries.take inCount.toNat, FieldReadable f

@[mk_iff]
structure WitnessReadable (inCount : UInt64) (w : BcWitness) : Prop where
  small : w.stackItems.toNat < SIZE_MAX
  filled : w.stackItems ≠ 0 → ItemsReadable inCount w

def InputReadable (txi : BcTxInput) : Prop := BytesReadable txi.scriptSigSize txi.scriptSig

def OutputReadable (txo : BcTxOutput) : Prop := BytesReadable txo.scriptPubKeySize txo.scriptPubKey

def InputsReadable (tx : BcTxInfo) : Prop := VecReadable InputReadable tx.inCount tx.inVec

def OutputsReadable (tx : BcTxInfo) : Prop := VecReadable OutputReadable tx.outCount tx.outVec

def WitnessesReadable (tx : BcTxInfo) : Prop :=
  VecReadable (WitnessReadable tx.inCount) tx.inCount tx.witnessVec

structure LegacyReadable (tx : BcTxInfo) : Prop where
  inputs : InputsReadable tx
  outputs : OutputsReadable tx

structure TransactionReadable (tx : BcTxInfo) : Prop extends LegacyReadable tx where
  witnesses : tx.flags ≠ 0 → WitnessesReadable tx

instance (size : UInt64) (dat : List UInt8) : Decidable (BytesReadable size dat) :=
  decidable_of_iff' _ (bytesReadable_iff size dat)

instance {α : Type} (readable : α → Prop) [DecidablePred readable] (count : UInt64)
    (vec : List α) : Decidable (VecReadable readable count vec) :=
  decidable_of_iff' _ (vecReadable_iff readable count vec)

instance (f : BcWitnessField) : Decidable (FieldReadable f) :=
  decidable_of_iff' _ (fieldReadable_iff f)

instance (inCount : UInt64) (w : BcWitness) : Decidable (ItemsReadable inCount w) :=
  decidable_of_iff' _ (itemsReadable_iff inCount w)

instance (inCount : UInt64) : DecidablePred (WitnessReadable inCount) :=
  fun w => decidable_of_iff' _ (witnessReadable_iff inCount w)

instance (tx : BcTxInfo) : Decidable (WitnessesReadable tx) :=
  inferInstanceAs (Decidable (VecReadable (WitnessReadable tx.inCount) _ _))

/-! ## Runs that come to their end -/

/-- With memory, the encoder comes to its end only if `P` holds. -/
def Needs {α : Type} (encoder : Encoder α) (P : Prop) : Prop :=
  ∀ fresh buf, (encoder (served fresh) buf).isSome → P

section Needs

variable {α γ : Type} {first : Encoder α} {next : α → Encoder γ} {P : Prop}

theorem Needs.here (needs : Needs first P) : Needs (first >>= next) P := by
  intro fresh buf ends
  rw [bind_run] at ends
  cases run : first (served fresh) buf with
  | none => simp [run] at ends
  | some result => exact needs fresh buf (by rw [run]; rfl)

theorem Needs.later (needs : ∀ a, Needs (next a) P) : Needs (first >>= next) P := by
  intro fresh buf ends
  rw [bind_run] at ends
  cases run : first (served fresh) buf with
  | none => simp [run] at ends
  | some result =>
    rw [run, Option.bind_some] at ends
    exact needs result.1 fresh result.2 ends

theorem Needs.and {encoder : Encoder α} {Q : Prop} (needs : Needs encoder P)
    (needs' : Needs encoder Q) : Needs encoder (P ∧ Q) :=
  fun fresh buf ends => ⟨needs fresh buf ends, needs' fresh buf ends⟩

theorem Needs.mono {encoder : Encoder α} {Q : Prop} (needs : Needs encoder P) (weaker : P → Q) :
    Needs encoder Q :=
  fun fresh buf ends => weaker (needs fresh buf ends)

theorem Needs.holds {encoder : Encoder α} {code : List UInt8} {a : α} (needs : Needs encoder P)
    (writes : Writes encoder (some code) a) : P := by
  obtain ⟨calls, run⟩ := writes (fun _ _ => 0) ⟨[], 0⟩
  exact needs (fun _ _ => 0) ⟨[], 0⟩ (by rw [run]; rfl)

theorem needs_nuAssert (x : Prop) [Decidable x] : Needs (nuAssert x) x := by
  intro fresh buf ends
  by_cases holds : x
  · exact holds
  · rw [nuAssert, if_neg holds] at ends
    cases ends

/-- What is behind an assertion is needed with it. -/
theorem needs_asserted {x : Prop} [Decidable x] {rest : Unit → Encoder γ}
    (needs : Needs (rest ()) P) :
    Needs (nuAssert x >>= rest) (x ∧ P) :=
  (needs_nuAssert x).here.and (Needs.later fun _ => needs)

theorem needs_forEach {body : α → Encoder Unit} {Q : α → Prop} (needs : ∀ a, Needs (body a) (Q a))
    (count : Nat) (vec : List α) :
    Needs (forEach body count vec) (count ≤ vec.length ∧ ∀ a ∈ vec.take count, Q a) := by
  induction count generalizing vec with
  | zero =>
    intro _ _ _
    simp
  | succ count inductionHypothesis =>
    cases vec with
    | nil =>
      intro fresh buf ends
      cases ends
    | cons a vec =>
      have both : Needs (forEach body (count + 1) (a :: vec)) _ :=
        ((needs a).here).and (Needs.later fun _ => inductionHypothesis vec)
      refine both.mono ?_
      rintro ⟨here, enough, later⟩
      refine ⟨Nat.succ_le_succ enough, ?_⟩
      rw [List.take_succ_cons]
      intro b member
      cases member with
      | head => exact here
      | tail _ member => exact later b member

/-- An asserted count and as many elements of an array. -/
theorem needs_section {body : α → Encoder Unit} {Q : α → Prop} (needs : ∀ a, Needs (body a) (Q a))
    (count : UInt64) (vec : List α) :
    Needs (do
      nuAssert (count.toNat < SIZE_MAX)
      let _ ← bcAppendVarint count
      forEach body count.toNat vec
      return (0 : Int)) (VecReadable Q count vec) := by
  have each := needs_forEach needs count.toNat vec
  exact (needs_asserted (Needs.later fun _ => each.here)).mono (vecReadable_iff Q count vec).mpr

theorem needs_bcAppendBytes (dat : List UInt8) (num : UInt64) :
    Needs (bcAppendBytes dat num) (num.toNat ≤ dat.length) := by
  intro fresh buf ends
  obtain ⟨calls, run⟩ := writes_bcAppendBytes dat num fresh buf
  by_cases inside : num.toNat ≤ dat.length
  · exact inside
  · rw [run, if_neg inside] at ends
    cases ends

theorem needs_script {script : List UInt8} {size : UInt64} {next rest : Encoder α} :
    Needs (if size ≠ 0 then do
        nuAssert (size.toNat < SIZE_MAX)
        let _ ← bcAppendBytes script size
        next
      else rest) (BytesReadable size script) := by
  by_cases filled : size ≠ 0
  · rw [if_pos filled]
    exact (needs_asserted (needs_bcAppendBytes script size).here).mono
      (bytesReadable_iff size script).mpr
  · intro _ _ _
    rw [not_not.mp filled]
    exact ⟨by decide, Nat.zero_le _⟩

end Needs

theorem needs_bcAppendTxInput (txi : BcTxInput) : Needs (bcAppendTxInput txi) (InputReadable txi) :=
  Needs.later fun _ => Needs.later fun _ => Needs.later fun _ => needs_script

theorem needs_bcAppendTxOutput (txo : BcTxOutput) :
    Needs (bcAppendTxOutput txo) (OutputReadable txo) :=
  Needs.later fun _ => Needs.later fun _ => needs_script

theorem needs_bcAppendTxInputsSection (tx : BcTxInfo) :
    Needs (bcAppendTxInputsSection tx) (InputsReadable tx) :=
  needs_section (fun txi => (needs_bcAppendTxInput txi).here) tx.inCount tx.inVec

theorem needs_bcAppendTxOutputsSection (tx : BcTxInfo) :
    Needs (bcAppendTxOutputsSection tx) (OutputsReadable tx) :=
  needs_section (fun txo => (needs_bcAppendTxOutput txo).here) tx.outCount tx.outVec

theorem needs_appendWitnessField (f : BcWitnessField) :
    Needs (appendWitnessField f) (FieldReadable f) := by
  have rest : Needs (do
      let _ ← bcAppendVarint f.size
      let _ ← bcAppendBytes f.bytes f.size) (f.size.toNat ≤ f.bytes.length) :=
    Needs.later fun _ => (needs_bcAppendBytes f.bytes f.size).here
  refine Needs.mono (needs_asserted (needs_asserted rest)) ?_
  rintro ⟨small, data, long⟩
  exact ⟨⟨small, long⟩, data⟩

theorem needs_appendWitness (inCount : UInt64) (w : BcWitness) :
    Needs (appendWitness inCount w) (WitnessReadable inCount w) := by
  have items : Needs (if w.stackItems ≠ 0 then do
        nuAssert (w.items ≠ none)
        forEach appendWitnessField inCount.toNat w.entries
      else pure ()) (w.stackItems ≠ 0 → ItemsReadable inCount w) := by
    by_cases filled : w.stackItems ≠ 0
    · rw [if_pos filled]
      have each := needs_forEach needs_appendWitnessField inCount.toNat w.entries
      exact (needs_asserted each).mono fun all _ => (itemsReadable_iff inCount w).mpr all
    · exact fun _ _ _ present => absurd present filled
  exact (needs_asserted (Needs.later fun _ => items)).mono (witnessReadable_iff inCount w).mpr

theorem needs_bcAppendTxWitnessesSection (tx : BcTxInfo) :
    Needs (bcAppendTxWitnessesSection tx) (WitnessesReadable tx) :=
  needs_section (needs_appendWitness tx.inCount) tx.inCount tx.witnessVec

theorem needs_bcAppendTxLegacy (tx : BcTxInfo) :
    Needs (bcAppendTxLegacy tx) (LegacyReadable tx) := by
  have inputs : Needs (bcAppendTxLegacy tx) (InputsReadable tx) :=
    Needs.later fun _ => (needs_bcAppendTxInputsSection tx).here
  have outputs : Needs (bcAppendTxLegacy tx) (OutputsReadable tx) :=
    Needs.later fun _ => Needs.later fun _ => (needs_bcAppendTxOutputsSection tx).here
  exact (inputs.and outputs).mono fun readable => ⟨readable.1, readable.2⟩

theorem needs_bcAppendTxSegwit (tx : BcTxInfo) :
    Needs (bcAppendTxSegwit tx) (LegacyReadable tx ∧ WitnessesReadable tx) := by
  have inputs : Needs (bcAppendTxSegwit tx) (InputsReadable tx) :=
    Needs.later fun _ => Needs.later fun _ => Needs.later fun _ =>
      (needs_bcAppendTxInputsSection tx).here
  have outputs : Needs (bcAppendTxSegwit tx) (OutputsReadable tx) :=
    Needs.later fun _ => Needs.later fun _ => Needs.later fun _ => Needs.later fun _ =>
      (needs_bcAppendTxOutputsSection tx).here
  have witnesses : Needs (bcAppendTxSegwit tx) (WitnessesReadable tx) :=
    Needs.later fun _ => Needs.later fun _ => Needs.later fun _ => Needs.later fun _ =>
      Needs.later fun _ => (needs_bcAppendTxWitnessesSection tx).here
  exact ((inputs.and outputs).and witnesses).mono fun readable =>
    ⟨⟨readable.1.1, readable.1.2⟩, readable.2⟩

theorem needs_bcAppendTransaction (tx : BcTxInfo) :
    Needs (bcAppendTransaction tx) (TransactionReadable tx) := by
  unfold bcAppendTransaction
  by_cases segwit : tx.flags ≠ 0
  · rw [if_pos segwit]
    exact (needs_bcAppendTxSegwit tx).mono fun readable => ⟨readable.1, fun _ => readable.2⟩
  · rw [if_neg segwit]
    exact (needs_bcAppendTxLegacy tx).mono fun readable =>
      ⟨readable, fun flags => absurd flags segwit⟩

end NuLab.Transaction
