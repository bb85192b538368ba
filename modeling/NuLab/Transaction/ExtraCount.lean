import NuLab.Transaction.Segwit

/-! # The extra count in front of the witnesses

If the bytes of the source were those of the format, the extra count would shift
everything behind it.  With fewer than 253 inputs it is one byte, which every byte
behind it has to repeat.  In general the shift keeps the sum of the bytes shifted
over; a stack with items that the source drops has a size too close to the extra
count for that.
-/

namespace NuLab.Transaction

open NuLab.Bytes NuLab.Parse

/-! ## The four forms of a count -/

/-- The form of a value, with the range of the values written so. -/
inductive VarintForm (val : UInt64) : Prop where
  | one (bound : val.toNat < 0xFD) (form : varint val = toLE 1 val.toNat)
  | three (low : 0xFD ≤ val.toNat) (bound : val.toNat < 0xFFFF)
      (form : varint val = 0xFD :: toLE 2 val.toNat)
  | five (low : 0xFFFF ≤ val.toNat) (bound : val.toNat < 0xFFFFFFFF)
      (form : varint val = 0xFE :: toLE 4 val.toNat)
  | nine (low : 0xFFFFFFFF ≤ val.toNat) (form : varint val = 0xFF :: toLE 8 val.toNat)

theorem varint_form (val : UInt64) : VarintForm val := by
  by_cases one : val < 0xFD
  · exact .one (UInt64.lt_iff_toNat_lt.mp one) (if_pos one)
  · have low : 0xFD ≤ val.toNat := UInt64.le_iff_toNat_le.mp (UInt64.not_lt.mp one)
    by_cases three : val < 0xFFFF
    · exact .three low (UInt64.lt_iff_toNat_lt.mp three) ((if_neg one).trans (if_pos three))
    · have low : 0xFFFF ≤ val.toNat := UInt64.le_iff_toNat_le.mp (UInt64.not_lt.mp three)
      by_cases five : val < 0xFFFFFFFF
      · exact .five low (UInt64.lt_iff_toNat_lt.mp five)
          ((if_neg one).trans ((if_neg three).trans (if_pos five)))
      · exact .nine (UInt64.le_iff_toNat_le.mp (UInt64.not_lt.mp five))
          ((if_neg one).trans ((if_neg three).trans (if_neg five)))

theorem varint_cons (val : UInt64) :
    ∃ marker tail, varint val = marker :: tail ∧ (val ≠ 0 → marker ≠ 0) := by
  cases varint_form val with
  | one bound form =>
    refine ⟨_, _, form, ?_⟩
    intro positive zero
    apply positive
    have low : val.toNat % 256 = 0 := by simpa using congrArg UInt8.toNat zero
    rw [Nat.mod_eq_of_lt (by omega)] at low
    exact UInt64.toNat_inj.mp low
  | three _ _ form => exact ⟨_, _, form, fun _ => by decide⟩
  | five _ _ form => exact ⟨_, _, form, fun _ => by decide⟩
  | nine _ form => exact ⟨_, _, form, fun _ => by decide⟩

/-! ## Fewer than 253 inputs -/

theorem shift_bytes {first : UInt8} (data : List UInt8) {front back : List UInt8}
    (same : first :: (data ++ front) = data ++ back) : first :: front = back := by
  induction data generalizing first with
  | nil => exact same
  | cons byte data inductionHypothesis =>
    rw [List.cons_append, List.cons_append, List.cons.injEq] at same
    rw [same.1]
    exact inductionHypothesis same.2

theorem varint_small {val : UInt64} (small : val < 0xFD) : varint val = [val.toUInt8] :=
  if_pos small

/-- Behind a shift by a small count, every item is as large as that count and
shifts the rest, too. -/
theorem shift_items {count : UInt64} (small : count < 0xFD) {items : List BcWitnessField}
    {front back : List UInt8}
    (same : varint count ++ (items.flatMap itemCode ++ front) = items.flatMap bip144Item ++ back) :
    varint count ++ front = back := by
  induction items with
  | nil => exact same
  | cons f items inductionHypothesis =>
    simp only [List.flatMap_cons, itemCode, bip144Item, List.append_assoc] at same
    obtain ⟨size, rest⟩ := (reads_readVarint count).cancel (reads_compactSize f.size) same
    -- the extra count was read as the size of this item, whose own size now stands in front of the
    -- data
    rw [← size, varint_small small] at rest
    have shifted := shift_bytes f.bytes rest
    rw [varint_small small] at inductionHypothesis ⊢
    exact inductionHypothesis shifted

/-- What equal bytes say about the first stack: the extra count was taken for its size. -/
theorem first_stack {count : UInt64} {w : BcWitness} {stackBytes front back : List UInt8}
    (positive : count ≠ 0) (counted : w.entries.length = w.stackItems.toNat)
    (found : stackCode count w = some stackBytes)
    (same : varint count ++ (stackBytes ++ front) = bip144Stack w ++ back) :
    count = w.stackItems ∧ varint count ++ (w.entries.flatMap itemCode ++ front) =
      w.entries.flatMap bip144Item ++ back := by
  rw [bip144Stack, List.append_assoc] at same
  obtain ⟨size, rest⟩ := (reads_readVarint count).cancel (reads_compactSize w.stackItems) same
  refine ⟨size, ?_⟩
  rw [stackCode, ← size, if_pos positive, size, ← counted, eachCode_all w.entries fun _ _ =>
    rfl, Option.map_some, Option.some.injEq] at found
  rw [← rest, ← found, List.append_assoc, size]

/-- Below 253 inputs the shift reaches the end of the witnesses, where one byte is left over. -/
theorem shift_stacks {count : UInt64} (small : count < 0xFD) {witnesses : List BcWitness}
    {stackBytes : List UInt8} (positive : witnesses ≠ [] → count ≠ 0)
    (counted : ∀ w ∈ witnesses, w.entries.length = w.stackItems.toNat)
    (found : eachCode (stackCode count) witnesses.length witnesses = some stackBytes) :
    varint count ++ stackBytes ≠ witnesses.flatMap bip144Stack := by
  induction witnesses generalizing stackBytes with
  | nil =>
    rw [varint_small small]
    exact List.cons_ne_nil _ _
  | cons w witnesses inductionHypothesis =>
    intro same
    have nonzero := positive (List.cons_ne_nil w witnesses)
    obtain ⟨front, back, foundFront, foundBack, joined⟩ := eachCode_cons found
    rw [← joined, List.flatMap_cons] at same
    have rest := (first_stack nonzero (counted w List.mem_cons_self) foundFront same).2
    exact inductionHypothesis (fun _ => nonzero)
      (fun v member => counted v (List.mem_cons_of_mem w member)) foundBack
      (shift_items small rest)

/-- With any number of inputs, the first item of the first stack has to begin
like the extra count. -/
theorem first_item {count : UInt64} {witnesses : List BcWitness} {stackBytes : List UInt8}
    (length : witnesses.length = count.toNat)
    (counted : ∀ w ∈ witnesses, w.entries.length = w.stackItems.toNat)
    (sizes : ∀ w ∈ witnesses, ∀ f ∈ w.entries, f.bytes.length = f.size.toNat)
    (found : eachCode (stackCode count) count.toNat witnesses = some stackBytes)
    (same : varint count ++ stackBytes = witnesses.flatMap bip144Stack) :
    ∃ w ∈ witnesses.head?, ∃ f ∈ w.entries.head?, f.size = count ∧
      f.bytes.head? = (varint count).head? := by
  obtain ⟨marker, tail, form, -⟩ := varint_cons count
  cases witnesses with
  | nil =>
    rw [form] at same
    cases same
  | cons w witnesses =>
    have positive : 0 < count.toNat := by rw [← length, List.length_cons]; omega
    have nonzero : count ≠ 0 := fun zero => by
      rw [zero] at positive; exact absurd positive (by decide)
    rw [← length] at found
    obtain ⟨front, back, foundFront, -, joined⟩ := eachCode_cons found
    rw [← joined, List.flatMap_cons] at same
    obtain ⟨stackSize, rest⟩ := first_stack nonzero (counted w List.mem_cons_self) foundFront same
    refine ⟨w, rfl, ?_⟩
    have itemCount := counted w List.mem_cons_self
    rw [← stackSize] at itemCount
    cases items : w.entries with
    | nil =>
      -- the stack size is the extra count, which is not 0
      rw [items, List.length_nil] at itemCount
      omega
    | cons f others =>
      have data := sizes w List.mem_cons_self f (by rw [items]; exact List.mem_cons_self)
      simp only [items, List.flatMap_cons, itemCode, bip144Item, List.append_assoc] at rest
      obtain ⟨size, rest⟩ := (reads_readVarint count).cancel (reads_compactSize f.size) rest
      refine ⟨f, rfl, size.symm, ?_⟩
      cases bytes : f.bytes with
      | nil =>
        rw [bytes, ← size, List.length_nil] at data
        omega
      | cons first bytes' =>
        rw [← size, bytes, form] at rest
        rw [form]
        simp only [List.cons_append, List.cons.injEq] at rest
        rw [List.head?_cons, List.head?_cons, rest.1]

/-! ## Any number of inputs -/

/-- `bc_append_varint` writes these two values in a wider form than the format has. -/
def Wide (val : UInt64) : Prop := val = 0xFFFF ∨ val = 0xFFFFFFFF

theorem compactSize_eq {val : UInt64} (narrow : ¬ Wide val) : compactSize val = varint val := by
  have three : val ≤ 0xFFFF ↔ val < 0xFFFF := by
    rw [UInt64.le_iff_lt_or_eq]
    exact or_iff_left fun same => narrow (Or.inl same)
  have five : val ≤ 0xFFFFFFFF ↔ val < 0xFFFFFFFF := by
    rw [UInt64.le_iff_lt_or_eq]
    exact or_iff_left fun same => narrow (Or.inr same)
  simp only [compactSize, varint, three, five]

/-- What is pushed over `data` keeps its length and the sum of its bytes. -/
theorem append_shift {pending data front back : List UInt8}
    (same : pending ++ (data ++ front) = data ++ back) :
    ∃ pending', pending'.length = pending.length ∧ byteSum pending' = byteSum pending ∧
      back = pending' ++ front := by
  have split : (pending ++ data).take data.length = data := by
    have start := congrArg (List.take data.length) same
    rw [← List.append_assoc, List.take_append_of_le_length (by rw [List.length_append]; omega),
      List.take_left] at start
    exact start
  have pushed : pending ++ data = data ++ (pending ++ data).drop data.length := by
    conv => lhs; rw [← List.take_append_drop data.length (pending ++ data), split]
  refine ⟨(pending ++ data).drop data.length, ?_, ?_, ?_⟩
  · rw [List.length_drop, List.length_append, Nat.add_sub_cancel]
  · have sums := congrArg byteSum pushed
    rw [byteSum_append, byteSum_append] at sums
    omega
  · rw [← List.append_assoc, pushed, List.append_assoc, List.append_cancel_left_eq] at same
    exact same.symm

theorem byteSum_marked (marker : UInt8) (width val : Nat) :
    byteSum (marker :: toLE width val) % 255 = (marker.toNat + val % 256 ^ width) % 255 := by
  rw [byteSum, Nat.add_mod, byteSum_mod, ofLE_toLE, ← Nat.add_mod]

theorem varint_length {a b : UInt64} (order : a.toNat ≤ b.toNat) :
    (varint a).length ≤ (varint b).length := by
  cases varint_form a with
  | one _ form =>
    obtain ⟨marker, tail, form', -⟩ := varint_cons b
    rw [form, form', toLE_length, List.length_cons]
    omega
  | three low _ form =>
    rw [form, List.length_cons, toLE_length]
    cases varint_form b with
    | one high => omega
    | three _ _ form' => rw [form', List.length_cons, toLE_length]
    | five _ _ form' => rw [form', List.length_cons, toLE_length]; decide
    | nine _ form' => rw [form', List.length_cons, toLE_length]; decide
  | five low _ form =>
    rw [form, List.length_cons, toLE_length]
    cases varint_form b with
    | one high => omega
    | three _ high => omega
    | five _ _ form' => rw [form', List.length_cons, toLE_length]
    | nine _ form' => rw [form', List.length_cons, toLE_length]; decide
  | nine low form =>
    rw [form, List.length_cons, toLE_length]
    cases varint_form b with
    | one high => omega
    | three _ high => omega
    | five _ high => omega
    | nine _ form' => rw [form', List.length_cons, toLE_length]

/-- The first bytes of a wider form, compared with a narrower one. -/
theorem byteSum_take {marker marker' : UInt8} {few width count size : Nat} (order : few ≤ width)
    (same : byteSum ((marker' :: toLE width size).take (marker :: toLE few count).length) =
      byteSum (marker :: toLE few count)) :
    (marker'.toNat + size % 256 ^ few) % 255 = (marker.toNat + count % 256 ^ few) % 255 := by
  rw [List.length_cons, toLE_length, List.take_succ_cons, take_toLE size order] at same
  rw [← byteSum_marked, ← byteSum_marked, same]

/-- A stack size a little larger than the extra count has another sum of bytes, even
where its form is wider. -/
theorem byteSum_close {count size : UInt64} (more : count.toNat < size.toNat)
    (close : size.toNat ≤ count.toNat + (varint count).length) (narrow : ¬ Wide size) :
    byteSum ((varint size).take (varint count).length) ≠ byteSum (varint count) := by
  have not65535 : size.toNat ≠ 0xFFFF := fun same => narrow (Or.inl (UInt64.toNat_inj.mp same))
  have not4294967295 : size.toNat ≠ 0xFFFFFFFF :=
    fun same => narrow (Or.inr (UInt64.toNat_inj.mp same))
  have bound := count.toNat_lt
  have bound' := size.toNat_lt
  intro same
  cases varint_form count with
  | one small form =>
    rw [form, toLE_length] at close same
    have sum : byteSum (toLE 1 count.toNat) % 255 = count.toNat := by
      rw [byteSum_mod, ofLE_toLE]; omega
    cases varint_form size with
    | one _ form' =>
      rw [form', take_toLE _ (Nat.le_refl 1)] at same
      rw [← same, byteSum_mod, ofLE_toLE] at sum
      omega
    | three _ _ form' =>
      rw [form', List.take_succ_cons, List.take_zero] at same
      rw [← same] at sum
      change 253 % 255 = count.toNat at sum
      omega
    | five low => omega
    | nine low => omega
  | three _ high form =>
    rw [form] at close same
    rw [List.length_cons, toLE_length] at close
    cases varint_form size with
    | one high' => omega
    | three _ _ form' =>
      have sums := byteSum_take (Nat.le_refl 2) (form' ▸ same)
      omega
    | five _ _ form' =>
      have sums := byteSum_take (by decide : 2 ≤ 4) (form' ▸ same)
      simp only [UInt8.reduceToNat] at sums
      omega
    | nine low => omega
  | five _ high form =>
    rw [form] at close same
    rw [List.length_cons, toLE_length] at close
    cases varint_form size with
    | one high' => omega
    | three _ high' => omega
    | five _ _ form' =>
      have sums := byteSum_take (Nat.le_refl 4) (form' ▸ same)
      omega
    | nine _ form' =>
      have sums := byteSum_take (by decide : 4 ≤ 8) (form' ▸ same)
      simp only [UInt8.reduceToNat] at sums
      omega
  | nine _ form =>
    rw [form] at close same
    rw [List.length_cons, toLE_length] at close
    cases varint_form size with
    | one high' => omega
    | three _ high' => omega
    | five _ high' => omega
    | nine _ form' =>
      have sums := byteSum_take (Nat.le_refl 8) (form' ▸ same)
      omega

theorem eachCode_take {α : Type} {code : α → List UInt8} {count : Nat} {vec : List α}
    {all : List UInt8} (found : eachCode (fun a => some (code a)) count vec = some all) :
    count ≤ vec.length ∧ all = (vec.take count).flatMap code := by
  induction count generalizing vec all with
  | zero => exact ⟨Nat.zero_le _, (Option.some.inj found).symm⟩
  | succ count inductionHypothesis =>
    cases vec with
    | nil => cases found
    | cons a vec =>
      obtain ⟨front, back, foundFront, foundBack, joined⟩ := eachCode_cons found
      cases foundFront
      obtain ⟨enough, form⟩ := inductionHypothesis foundBack
      rw [List.length_cons, List.take_succ_cons, List.flatMap_cons, ← form, joined]
      exact ⟨Nat.succ_le_succ enough, rfl⟩

/-- No count or size of the stack is written in another form than that of the format. -/
structure NarrowStack (w : BcWitness) : Prop where
  stackItems : ¬ Wide w.stackItems
  sizes : ∀ f ∈ w.entries, ¬ Wide f.size

theorem length_le_itemCodes (items : List BcWitnessField) :
    items.length ≤ (items.flatMap itemCode).length := by
  refine (flatMap_lengths fun f _ => ?_).1
  obtain ⟨marker, tail, form, -⟩ := varint_cons f.size
  rw [itemCode, form]
  exact List.cons_ne_nil _ _

/-- What is written of a stack is its count and its first items: none of an empty one,
`count` of any other. -/
theorem stackCode_split {count : UInt64} {w : BcWitness} {front : List UInt8}
    (counted : w.entries.length = w.stackItems.toNat) (found : stackCode count w = some front) :
    ∃ items dropped, front = varint w.stackItems ++ items ∧
      w.entries.flatMap itemCode = items ++ dropped.flatMap itemCode ∧
      (w.stackItems = 0 ∧ dropped = [] ∨ w.stackItems.toNat = count.toNat + dropped.length) := by
  rw [stackCode, Option.map_eq_some_iff] at found
  obtain ⟨written, found, joined⟩ := found
  by_cases filled : w.stackItems ≠ 0
  · rw [if_pos filled] at found
    obtain ⟨enough, form⟩ := eachCode_take found
    refine ⟨written, w.entries.drop count.toNat, joined.symm, ?_, Or.inr ?_⟩
    · rw [form, ← List.flatMap_append, List.take_append_drop]
    · rw [List.length_drop]
      omega
  · rw [if_neg filled, Option.some.injEq] at found
    refine ⟨written, [], joined.symm, ?_, Or.inl ⟨not_not.mp filled, rfl⟩⟩
    rw [counted_empty counted filled, ← found]
    rfl

/-- What the source drops of a stack lies behind what it writes, one byte at
least for every item. -/
theorem stack_dropped {count : UInt64} {w : BcWitness} {front : List UInt8} (narrow : NarrowStack w)
    (counted : w.entries.length = w.stackItems.toNat) (found : stackCode count w = some front) :
    ∃ dropped, bip144Stack w = front ++ dropped ∧ (∃ items, front = varint w.stackItems ++ items) ∧
      (dropped ≠ [] → count.toNat < w.stackItems.toNat ∧
        w.stackItems.toNat ≤ count.toNat + dropped.length) := by
  have items : w.entries.flatMap bip144Item = w.entries.flatMap itemCode := by
    refine List.flatMap_congr fun f member => ?_
    rw [bip144Item, compactSize_eq (narrow.sizes f member), itemCode]
  obtain ⟨written, dropped, joined, split, count⟩ := stackCode_split counted found
  refine ⟨dropped.flatMap itemCode, ?_, ⟨written, joined⟩, fun nonempty => ?_⟩
  · rw [bip144Stack, compactSize_eq narrow.stackItems, items, split, joined, List.append_assoc]
  · have some : dropped ≠ [] := by
      rintro rfl
      exact nonempty rfl
    have length := List.length_pos_iff.mpr some
    have more := length_le_itemCodes dropped
    rcases count with ⟨-, none⟩ | total
    · exact absurd none some
    · omega

theorem length_stacks {count : UInt64} {witnesses : List BcWitness} {stackBytes : List UInt8}
    (narrow : ∀ w ∈ witnesses, NarrowStack w)
    (counted : ∀ w ∈ witnesses, w.entries.length = w.stackItems.toNat)
    (found : eachCode (stackCode count) witnesses.length witnesses = some stackBytes) :
    stackBytes.length ≤ (witnesses.flatMap bip144Stack).length := by
  induction witnesses generalizing stackBytes with
  | nil =>
    cases found
    exact Nat.le_refl 0
  | cons w witnesses inductionHypothesis =>
    obtain ⟨front, back, foundFront, foundBack, joined⟩ := eachCode_cons found
    obtain ⟨dropped, split, -, -⟩ :=
      stack_dropped (narrow w List.mem_cons_self) (counted w List.mem_cons_self) foundFront
    have rest := inductionHypothesis (fun v member => narrow v (List.mem_cons_of_mem w member))
      (fun v member => counted v (List.mem_cons_of_mem w member)) foundBack
    rw [← joined, List.flatMap_cons, split]
    simp only [List.length_append]
    omega

/-- Without wide counts, whatever has the length and the sum of the extra count
cannot be made up for. -/
theorem shift_narrow {count : UInt64} {witnesses : List BcWitness} {pending stackBytes : List UInt8}
    (length : pending.length = (varint count).length)
    (sum : byteSum pending = byteSum (varint count)) (narrow : ∀ w ∈ witnesses, NarrowStack w)
    (counted : ∀ w ∈ witnesses, w.entries.length = w.stackItems.toNat)
    (found : eachCode (stackCode count) witnesses.length witnesses = some stackBytes) :
    pending ++ stackBytes ≠ witnesses.flatMap bip144Stack := by
  obtain ⟨marker, tail, form, -⟩ := varint_cons count
  induction witnesses generalizing pending stackBytes with
  | nil =>
    cases found
    rw [form, List.length_cons] at length
    intro same
    rw [List.append_nil, List.flatMap_nil] at same
    rw [same, List.length_nil] at length
    omega
  | cons w witnesses inductionHypothesis =>
    intro same
    obtain ⟨front, back, foundFront, foundBack, joined⟩ := eachCode_cons found
    have narrow' := fun v member => narrow v (List.mem_cons_of_mem w member)
    have counted' := fun v member => counted v (List.mem_cons_of_mem w member)
    obtain ⟨dropped, split, ⟨items, begins⟩, more⟩ :=
      stack_dropped (narrow w List.mem_cons_self) (counted w List.mem_cons_self) foundFront
    rw [← joined, List.flatMap_cons, split, List.append_assoc] at same
    obtain ⟨pending', length', sum', rest⟩ := append_shift same
    cases dropped with
    | nil =>
      -- the whole stack is shifted over, and the shift goes on behind it
      exact inductionHypothesis (length'.trans length) (sum'.trans sum) narrow' counted'
        foundBack rest.symm
    | cons byte dropped =>
      -- as many bytes are dropped as the extra count has, so that the size of this stack is close
      -- to it
      obtain ⟨less, close⟩ := more (List.cons_ne_nil byte dropped)
      have backLength := length_stacks narrow' counted' foundBack
      have total := congrArg List.length rest
      rw [List.length_append, List.length_append] at total
      have start := congrArg (List.take (varint count).length) same
      rw [List.take_left' length, begins, List.append_assoc,
        List.take_append_of_le_length (varint_length (Nat.le_of_lt less))] at start
      refine byteSum_close less (by omega) (narrow w List.mem_cons_self).stackItems ?_
      rw [← start, sum]

/-! ## No shape of transaction is serialized -/

def stackShape (w : BcWitness) : UInt64 × List UInt64 :=
  (w.stackItems, w.entries.map BcWitnessField.size)

/-- The transactions differ at most in what the pointers of their witnesses point to. -/
structure SameShape (tx tx' : BcTxInfo) : Prop where
  others : tx' = { tx with witnessVec := tx'.witnessVec }
  shapes : tx'.witnessVec.map stackShape = tx.witnessVec.map stackShape

def blankItem (f : BcWitnessField) : BcWitnessField :=
  { f with data := some (List.replicate f.size.toNat 0) }

def blankStack (w : BcWitness) : BcWitness := { w with items := some (w.entries.map blankItem) }

theorem blankStack_entries (w : BcWitness) : (blankStack w).entries = w.entries.map blankItem := rfl

theorem blankItem_bytes (f : BcWitnessField) :
    (blankItem f).bytes = List.replicate f.size.toNat 0 := rfl

/-- All witness bytes are zero. -/
def blank (tx : BcTxInfo) : BcTxInfo := { tx with witnessVec := tx.witnessVec.map blankStack }

theorem sameShape_blank (tx : BcTxInfo) : SameShape tx (blank tx) where
  others := rfl
  shapes := by
    rw [blank, List.map_map]
    refine List.map_congr_left fun w _ => ?_
    rw [Function.comp_apply, stackShape, blankStack_entries, List.map_map]
    rfl

theorem segwitCounted_blank {tx : BcTxInfo} (counted : SegwitCounted tx) :
    SegwitCounted (blank tx) where
  toCounted := ⟨counted.inputs, counted.outputs, counted.scriptSigs, counted.scriptPubKeys⟩
  witnesses := by rw [blank, List.length_map]; exact counted.witnesses
  stackSizes w member := by
    obtain ⟨v, inside, rfl⟩ := List.mem_map.mp member
    rw [blankStack_entries, List.length_map]
    exact counted.stackSizes v inside
  itemSizes w member f item := by
    obtain ⟨v, -, rfl⟩ := List.mem_map.mp member
    obtain ⟨g, -, rfl⟩ := List.mem_map.mp item
    rw [blankItem_bytes]
    exact List.length_replicate

theorem blank_fails {tx : BcTxInfo} (segwit : tx.flags ≠ 0) (counted : SegwitCounted tx)
    (fresh : Nat → Nat → UInt8) (buf : Buffer) : ¬ AppendsBip144 fresh buf (blank tx) := by
  intro appends
  have counted' := segwitCounted_blank counted
  have segwit' : (blank tx).flags ≠ 0 := segwit
  obtain ⟨stackBytes, found, same⟩ := appends.stacks segwit' counted'
  obtain ⟨w, first, f, item, size, head⟩ :=
    first_item counted'.witnesses counted'.stackSizes counted'.itemSizes found same
  obtain ⟨marker, tail, form, positive⟩ := varint_cons (blank tx).inCount
  obtain ⟨v, -, rfl⟩ := List.mem_map.mp (List.mem_of_mem_head? first)
  obtain ⟨g, -, rfl⟩ := List.mem_map.mp (List.mem_of_mem_head? item)
  rw [blankItem_bytes, form, List.head?_cons] at head
  obtain ⟨nonzero, zero⟩ := List.mem_replicate.mp (List.mem_of_mem_head? head)
  -- the first item begins with 0, but a count of 0 has no first stack
  refine positive ?_ zero
  intro none
  rw [← size, blankItem] at none
  exact nonzero (by rw [none]; rfl)

/-- No transaction with fewer than 253 inputs is serialized, none without a wide count or size in
its witnesses, and of no shape all transactions are. -/
theorem bcAppendTransaction_bip144 (tx : BcTxInfo) (segwit : tx.flags ≠ 0)
    (counted : SegwitCounted tx) (fresh : Nat → Nat → UInt8) (buf : Buffer) :
    (tx.inCount < 0xFD → ¬ AppendsBip144 fresh buf tx) ∧
      ((∀ w ∈ tx.witnessVec, NarrowStack w) → ¬ AppendsBip144 fresh buf tx) ∧
      ∃ tx', SameShape tx tx' ∧ SegwitCounted tx' ∧ ¬ AppendsBip144 fresh buf tx' := by
  refine ⟨?_, ?_, blank tx, sameShape_blank tx, segwitCounted_blank counted,
    blank_fails segwit counted fresh buf⟩
  · intro small appends
    obtain ⟨stackBytes, found, same⟩ := appends.stacks segwit counted
    refine shift_stacks small ?_ counted.stackSizes (counted.witnesses ▸ found) same
    intro nonempty zero
    apply nonempty
    rw [← List.length_eq_zero_iff, counted.witnesses, zero]
    rfl
  · intro narrow appends
    obtain ⟨stackBytes, found, same⟩ := appends.stacks segwit counted
    exact shift_narrow rfl rfl narrow counted.stackSizes (counted.witnesses ▸ found) same

theorem coinbase_segwitCounted : SegwitCounted coinbase where
  toCounted := coinbase_counted
  witnesses := rfl
  stackSizes w member := by
    rw [List.mem_singleton.mp member]
    rfl
  itemSizes w member f item := by
    rw [List.mem_singleton.mp member] at item
    rw [List.mem_singleton.mp item]
    rfl

theorem coinbase_readable : TransactionReadable coinbase where
  toLegacyReadable := legacyReadable_of_short coinbase_counted (by decide)
  witnesses _ := by decide

theorem bcAppendTransaction_bip144_coinbase : ¬ AppendsBip144 (fun _ _ => 0) ⟨[], 0⟩ coinbase :=
  (bcAppendTransaction_bip144 coinbase (by decide) coinbase_segwitCounted (fun _ _ => 0) ⟨[], 0⟩).1
    (by decide)

/-- The source appends one byte too many for a coinbase transaction. -/
theorem bcAppendTransaction_bip144_fails :
    ¬ ∀ (tx : BcTxInfo) (fresh : Nat → Nat → UInt8) (buf : Buffer), tx.flags ≠ 0 →
      SegwitCounted tx →
      AppendsBip144 fresh buf tx := by
  intro always
  have appends := always coinbase (fun _ _ => 0) ⟨[], 0⟩ (by decide) coinbase_segwitCounted
  obtain ⟨stackBytes, found, same⟩ := appends.stacks (by decide) coinbase_segwitCounted
  have bytes : stacksCode coinbase = some [1, 2, 7, 8] := by decide
  have wanted : coinbase.witnessVec.flatMap bip144Stack = [1, 2, 7, 8] := by decide
  have count : varint coinbase.inCount = [1] := by decide
  rw [bytes, Option.some.injEq] at found
  rw [← found, wanted, count] at same
  cases same

end NuLab.Transaction
