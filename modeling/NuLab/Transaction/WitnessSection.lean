import NuLab.Transaction.CompactSize

/-! # Which witnesses are kept

The loop over the items of a stack counts up to the number of inputs.  A stack with
fewer items is read behind its end, of one with more the last ones are dropped; the
section is whole if every stack is empty or as large as the number of inputs, and no
item fails an assertion.
-/

namespace NuLab.Transaction

open NuLab.Bytes NuLab.Dca NuLab.Parse

/-- There is one witness for every input, and stacks and items have the sizes that they state. -/
structure StacksCounted (tx : BcTxInfo) : Prop where
  witnesses : tx.witnessVec.length = tx.inCount.toNat
  stackSizes : ∀ w ∈ tx.witnessVec, w.entries.length = w.stackItems.toNat
  itemSizes : ∀ w ∈ tx.witnessVec, ∀ f ∈ w.entries, f.bytes.length = f.size.toNat

/-- All items of a stack, each with its size in front. -/
def wholeStack (w : BcWitness) : List UInt8 := varint w.stackItems ++ w.entries.flatMap itemCode

def wholeSection (tx : BcTxInfo) : List UInt8 :=
  varint tx.inCount ++ tx.witnessVec.flatMap wholeStack

def stackData (w : BcWitness) : List (List UInt8) := w.entries.map BcWitnessField.bytes

/-- The section has every item, and no transaction with as many inputs and another item
has the same section. -/
structure KeepsWitnesses (tx : BcTxInfo) : Prop where
  whole : Writes (bcAppendTxWitnessesSection tx) (some (wholeSection tx)) 0
  distinct : ∀ tx', StacksCounted tx' → tx'.inCount = tx.inCount →
    tx'.witnessVec.map stackData ≠ tx.witnessVec.map stackData →
    ∀ code, Writes (bcAppendTxWitnessesSection tx) code 0 →
      ¬ Writes (bcAppendTxWitnessesSection tx') code 0

/-! ## One stack -/

/-- The loop over the items ends with the stack. -/
def EndsWithStack (inCount : UInt64) (w : BcWitness) : Prop :=
  w.stackItems = 0 ∨ w.stackItems = inCount

theorem stackCode_whole {inCount : UInt64} {w : BcWitness}
    (counted : w.entries.length = w.stackItems.toNat) (ends : EndsWithStack inCount w) :
    stackCode inCount w = some (wholeStack w) := by
  unfold stackCode wholeStack
  by_cases filled : w.stackItems ≠ 0
  · have same : w.stackItems = inCount := ends.resolve_left filled
    rw [if_pos filled, ← same, ← counted, eachCode_all w.entries fun _ _ => rfl, Option.map_some]
  · rw [if_neg filled, counted_empty counted filled, Option.map_some, List.flatMap_nil]

/-- What is written of a stack is a front of it, and all of it only if the loop ends with it. -/
theorem stackCode_front {inCount : UInt64} {w : BcWitness} {front : List UInt8}
    (counted : w.entries.length = w.stackItems.toNat) (found : stackCode inCount w = some front) :
    front.length ≤ (wholeStack w).length ∧
      (front.length = (wholeStack w).length → EndsWithStack inCount w) := by
  obtain ⟨written, dropped, joined, split, count⟩ := stackCode_split counted found
  have length := congrArg List.length split
  rw [List.length_append] at length
  rw [wholeStack, joined, List.length_append, List.length_append]
  refine ⟨by omega, fun same => ?_⟩
  -- every dropped item has one byte at least
  have more := length_le_itemCodes dropped
  rcases count with ⟨empty, -⟩ | total
  · exact Or.inl empty
  · exact Or.inr (UInt64.toNat_inj.mp (by omega))

/-! ## All stacks -/

theorem stacks_front {inCount : UInt64} {witnesses : List BcWitness} {stackBytes : List UInt8}
    (counted : ∀ w ∈ witnesses, w.entries.length = w.stackItems.toNat)
    (found : eachCode (stackCode inCount) witnesses.length witnesses = some stackBytes) :
    stackBytes.length ≤ (witnesses.flatMap wholeStack).length ∧
      (stackBytes.length = (witnesses.flatMap wholeStack).length →
        ∀ w ∈ witnesses, EndsWithStack inCount w) := by
  induction witnesses generalizing stackBytes with
  | nil => exact ⟨Nat.le_of_eq (by cases found; rfl), fun _ w member => by cases member⟩
  | cons w witnesses inductionHypothesis =>
    obtain ⟨front, back, foundFront, foundBack, joined⟩ := eachCode_cons found
    obtain ⟨frontLe, frontEnds⟩ := stackCode_front (counted w List.mem_cons_self) foundFront
    obtain ⟨backLe, backEnds⟩ :=
      inductionHypothesis (fun v member => counted v (List.mem_cons_of_mem w member)) foundBack
    rw [← joined, List.flatMap_cons, List.length_append, List.length_append]
    refine ⟨Nat.add_le_add frontLe backLe, fun same v member => ?_⟩
    cases List.mem_cons.mp member with
    | inl first =>
      rw [first]
      exact frontEnds (by omega)
    | inr later => exact backEnds (by omega) v later

theorem stacksCode_whole_iff {tx : BcTxInfo} (counted : StacksCounted tx) :
    stacksCode tx = some (tx.witnessVec.flatMap wholeStack) ↔
      ∀ w ∈ tx.witnessVec, EndsWithStack tx.inCount w := by
  unfold stacksCode
  rw [← counted.witnesses]
  constructor
  · intro whole
    exact (stacks_front counted.stackSizes whole).2 rfl
  · intro ends
    exact eachCode_all tx.witnessVec fun w member =>
      stackCode_whole (counted.stackSizes w member) (ends w member)

/-- Whole stacks are read back, each up to the size in front of it. -/
theorem reads_wholeStack {w : BcWitness} (counted : w.entries.length = w.stackItems.toNat)
    (sizes : ∀ f ∈ w.entries, f.bytes.length = f.size.toNat) :
    Reads (readCounted readSized) (wholeStack w) (stackData w) :=
  reads_readCounted reads_readVarint counted fun f member =>
    reads_readSized reads_readVarint (sizes f member)

/-- Stacks that are written like whole ones have the same items: a stack that is read behind its end
or not to its end states another size. -/
theorem stackData_of_code {inCount : UInt64} {witnesses others : List BcWitness}
    (counted : ∀ w ∈ witnesses, w.entries.length = w.stackItems.toNat)
    (sizes : ∀ w ∈ witnesses, ∀ f ∈ w.entries, f.bytes.length = f.size.toNat)
    (ends : ∀ w ∈ witnesses, EndsWithStack inCount w)
    (counted' : ∀ w ∈ others, w.entries.length = w.stackItems.toNat)
    (sizes' : ∀ w ∈ others, ∀ f ∈ w.entries, f.bytes.length = f.size.toNat)
    (length : others.length = witnesses.length)
    (found : eachCode (stackCode inCount) others.length others =
      some (witnesses.flatMap wholeStack)) :
    others.map stackData = witnesses.map stackData := by
  induction others generalizing witnesses with
  | nil =>
    rw [List.length_eq_zero_iff.mp length.symm]
  | cons v others inductionHypothesis =>
    cases witnesses with
    | nil => cases length
    | cons w witnesses =>
      obtain ⟨front, back, foundFront, foundBack, joined⟩ := eachCode_cons found
      rw [List.flatMap_cons] at joined
      have size : v.stackItems = w.stackItems := by
        obtain ⟨written, -, begins⟩ := Option.map_eq_some_iff.mp foundFront
        rw [← begins, wholeStack, List.append_assoc, List.append_assoc] at joined
        exact ((reads_readVarint v.stackItems).cancel (reads_readVarint w.stackItems) joined).1
      have ends' : EndsWithStack inCount v := by
        rw [EndsWithStack, size]
        exact ends w List.mem_cons_self
      rw [stackCode_whole (counted' v List.mem_cons_self) ends', Option.some.injEq] at foundFront
      rw [← foundFront] at joined
      obtain ⟨data, rest⟩ :=
        (reads_wholeStack (counted' v List.mem_cons_self) (sizes' v List.mem_cons_self)).cancel
          (reads_wholeStack (counted w List.mem_cons_self) (sizes w List.mem_cons_self)) joined
      rw [rest] at foundBack
      have later := inductionHypothesis (fun u member => counted u (List.mem_cons_of_mem w member))
        (fun u member => sizes u (List.mem_cons_of_mem w member))
        (fun u member => ends u (List.mem_cons_of_mem w member))
        (fun u member => counted' u (List.mem_cons_of_mem v member))
        (fun u member => sizes' u (List.mem_cons_of_mem v member)) (Nat.succ.inj length) foundBack
      rw [List.map_cons, List.map_cons, data, later]

/-! ## The section -/

/-- The size and the pointer of an item pass their assertions. -/
def Asserted (f : BcWitnessField) : Prop := f.size.toNat < SIZE_MAX ∧ f.data ≠ none

/-- Where the loops end with the stacks, every item is asserted and nothing else can fail. -/
theorem witnessesReadable_iff {tx : BcTxInfo} (counted : StacksCounted tx)
    (ends : ∀ w ∈ tx.witnessVec, EndsWithStack tx.inCount w) :
    WitnessesReadable tx ↔
      tx.inCount.toNat < SIZE_MAX ∧ ∀ w ∈ tx.witnessVec, ∀ f ∈ w.entries, Asserted f := by
  constructor
  · intro readable
    refine ⟨readable.small, fun w member f item => ?_⟩
    have size := counted.stackSizes w member
    cases ends w member with
    | inl empty =>
      rw [counted_empty size (not_not.mpr empty)] at item
      cases item
    | inr same =>
      have filled : w.stackItems ≠ 0 := by
        intro empty
        rw [counted_empty size (not_not.mpr empty)] at item
        cases item
      have items := (readable.every counted.witnesses w member).filled filled
      have inside := items.each f (by rwa [← same, ← size, List.take_length])
      exact ⟨inside.small, inside.data⟩
  · rintro ⟨small, asserted⟩
    refine ⟨small, Nat.le_of_eq counted.witnesses.symm, fun w taken => ?_⟩
    have member := List.mem_of_mem_take taken
    have size := counted.stackSizes w member
    cases ends w member with
    | inl empty => exact ⟨by rw [empty]; decide, fun filled => absurd empty filled⟩
    | inr same =>
      refine ⟨same ▸ small, fun filled => ?_⟩
      have items : w.items ≠ none := by
        intro null
        rw [BcWitness.entries, null] at size
        exact filled (UInt64.toNat_inj.mp size.symm)
      refine ⟨items, by rw [size, same], fun f taken => ?_⟩
      have item := List.mem_of_mem_take taken
      have length := counted.itemSizes w member f item
      obtain ⟨fits, data⟩ := asserted w member f item
      exact ⟨⟨fits, Nat.le_of_eq length.symm⟩, data⟩

theorem writes_wholeSection_iff {tx : BcTxInfo} (counted : StacksCounted tx)
    (readable : WitnessesReadable tx) :
    Writes (bcAppendTxWitnessesSection tx) (some (wholeSection tx)) 0 ↔
      ∀ w ∈ tx.witnessVec, EndsWithStack tx.inCount w := by
  have writes := writes_bcAppendTxWitnessesSection counted.itemSizes readable
  rw [← stacksCode_whole_iff counted]
  constructor
  · intro whole
    obtain ⟨stackBytes, found, same⟩ := Option.map_eq_some_iff.mp (writes.unique whole)
    rw [found, List.append_cancel_left same]
  · intro found
    rw [found] at writes
    exact writes

/-- Another section that is written like a whole one has the same items. -/
theorem stackData_of_section {tx tx' : BcTxInfo} (counted : StacksCounted tx)
    (counted' : StacksCounted tx') (ends : ∀ w ∈ tx.witnessVec, EndsWithStack tx.inCount w)
    (inputs : tx'.inCount = tx.inCount)
    (writes : Writes (bcAppendTxWitnessesSection tx') (some (wholeSection tx)) 0) :
    tx'.witnessVec.map stackData = tx.witnessVec.map stackData := by
  have readable := (needs_bcAppendTxWitnessesSection tx').holds writes
  have same := (writes_bcAppendTxWitnessesSection counted'.itemSizes readable).unique writes
  rw [inputs] at same
  obtain ⟨stackBytes, found, joined⟩ := Option.map_eq_some_iff.mp same
  rw [List.append_cancel_left joined, stacksCode, ← counted'.witnesses, inputs] at found
  refine stackData_of_code counted.stackSizes counted.itemSizes ends counted'.stackSizes
    counted'.itemSizes ?_ found
  rw [counted'.witnesses, inputs, counted.witnesses]

/-- No witness data is lost exactly if every stack is empty or has as many items as there are
inputs, and all sizes and pointers pass their assertions. -/
theorem bcAppendTxWitnessesSection_keeps_iff (tx : BcTxInfo) (counted : StacksCounted tx) :
    KeepsWitnesses tx ↔ tx.inCount.toNat < SIZE_MAX ∧
      ∀ w ∈ tx.witnessVec, (w.stackItems = 0 ∨ w.stackItems = tx.inCount) ∧
        ∀ f ∈ w.entries, f.size.toNat < SIZE_MAX ∧ f.data ≠ none := by
  constructor
  · intro keeps
    have readable := (needs_bcAppendTxWitnessesSection tx).holds keeps.whole
    have ends := (writes_wholeSection_iff counted readable).mp keeps.whole
    obtain ⟨small, asserted⟩ := (witnessesReadable_iff counted ends).mp readable
    exact ⟨small, fun w member => ⟨ends w member, asserted w member⟩⟩
  · rintro ⟨small, each⟩
    have ends : ∀ w ∈ tx.witnessVec, EndsWithStack tx.inCount w :=
      fun w member => (each w member).1
    have readable := (witnessesReadable_iff counted ends).mpr
      ⟨small, fun w member => (each w member).2⟩
    have whole := (writes_wholeSection_iff counted readable).mpr ends
    refine ⟨whole, fun tx' counted' inputs other code writes writes' => other ?_⟩
    rw [writes.unique whole] at writes'
    exact stackData_of_section counted counted' ends inputs writes'

/-- Two inputs, without a stack and with a stack whose second item is empty. -/
def twoInputs : BcTxInfo :=
  { coinbase with
    inCount := 2
    witnessVec := [⟨0, none⟩, ⟨2, some [⟨2, some [7, 8]⟩, ⟨0, some []⟩]⟩] }

theorem twoInputs_counted : StacksCounted twoInputs where
  witnesses := rfl
  stackSizes := by decide
  itemSizes := by decide

theorem bcAppendTxWitnessesSection_keeps_iff_twoInputs : KeepsWitnesses twoInputs :=
  (bcAppendTxWitnessesSection_keeps_iff twoInputs twoInputs_counted).mpr (by decide)

/-- The coinbase transaction with a second item, which the source drops. -/
def signedCoinbase : BcTxInfo :=
  { coinbase with
    witnessVec := [{ stackItems := 2, items := some [⟨2, some [7, 8]⟩, ⟨1, some [9]⟩] }] }

theorem signedCoinbase_counted : StacksCounted signedCoinbase where
  witnesses := rfl
  stackSizes := by decide
  itemSizes := by decide

theorem bcAppendTxWitnessesSection_drops :
    ¬ ∀ tx : BcTxInfo, tx.flags ≠ 0 → StacksCounted tx → KeepsWitnesses tx := by
  intro always
  have keeps := always signedCoinbase (by decide) signedCoinbase_counted
  have readable := (needs_bcAppendTxWitnessesSection signedCoinbase).holds keeps.whole
  have ends := (writes_wholeSection_iff signedCoinbase_counted readable).mp keeps.whole
  cases ends _ (List.mem_singleton_self _) with
  | inl empty => cases empty
  | inr same => cases same

end NuLab.Transaction
