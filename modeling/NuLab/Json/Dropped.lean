import NuLab.Json.Scan

/-! # Transactions that the scanner drops

The scan returns 0 wherever the key of the array is found.  What it has delivered is
another question: the loop ends at the first round that does not find all three tags,
or when the callback refuses.
-/

namespace NuLab.Json

open NuLab.CString

variable {σ : Type}

/-! ## Values in a part of the text -/

/-- The value whose tag ends in front of `tmp`. -/
def spanBehind (memory : List UInt8) (tmp : Nat) : NuCspan :=
  let beg := tmp + strspn memory tmp (text "\": \n\t")
  ⟨beg, beg + strcspn memory beg (text "\",")⟩

theorem jsonFindTagValue_iff (memory : List UInt8) (json : NuCspan) (tag : List UInt8)
    (span : NuCspan) :
    jsonFindTagValue memory json tag = some span ↔
      ∃ i, strstr memory json.beg tag = some i ∧ spanBehind memory (i + tag.length) = span ∧
        span.fin ≤ json.fin := by
  unfold jsonFindTagValue
  cases occurs : strstr memory json.beg tag with
  | none => simp
  | some i =>
    simp only [Option.some.injEq, exists_eq_left']
    change (if json.fin < (spanBehind memory (i + tag.length)).fin then none
      else some (spanBehind memory (i + tag.length))) = some span ↔ _
    split_ifs with cut
    · simp only [false_iff, not_and]
      rintro rfl
      exact Nat.not_le.mpr cut
    · simp only [Option.some.injEq]
      constructor
      · rintro rfl
        exact ⟨rfl, Nat.le_of_not_lt cut⟩
      · exact fun found => found.1

/-- Values do not reach behind the text. -/
theorem spanBehind_le {memory : List UInt8} {tmp : Nat} (inside : tmp ≤ memory.length) :
    (spanBehind memory tmp).fin ≤ memory.length := by
  have spanned : ∀ (list : List UInt8) (p : UInt8 → Bool), ((cString list).takeWhile p).length ≤
      list.length := by
    intro list p
    exact Nat.le_trans (List.takeWhile_sublist _).length_le (List.takeWhile_sublist _).length_le
  have skipped := spanned (memory.drop tmp) (· ∈ text "\": \n\t")
  rw [List.length_drop] at skipped
  have value := spanned (memory.drop (spanBehind memory tmp).beg) (· ∉ text "\",")
  rw [List.length_drop] at value
  simp only [spanBehind, strspn, strcspn] at value ⊢
  omega

/-- What the tags have in common: a letter behind the first quote, and no other quote in
front of the last one. -/
theorem key_form (tag : Tag) : ∃ letter letters, tag.key = 34 :: letter :: (letters ++ [34]) ∧
    34 ∉ letter :: letters ∧ letter ∉ text "\": \n\t" := by
  cases tag with
  | data => exact ⟨100, text "ata", by decide, by decide, by decide⟩
  | txid => exact ⟨116, text "xid", by decide, by decide, by decide⟩
  | hash => exact ⟨104, text "ash", by decide, by decide, by decide⟩

theorem occurs_at {memory needle : List UInt8} {i : Nat} (occurs : needle <+: memory.drop i)
    {k : Nat} (inside : k < needle.length) : memory[i + k]? = needle[k]? := by
  obtain ⟨behind, split⟩ := occurs
  rw [← List.getElem?_drop, ← split, List.getElem?_append_left inside]

theorem skipped_at {memory : List UInt8} {tmp k : Nat} (behind : tmp ≤ k)
    (before : k < (spanBehind memory tmp).beg) :
    ∃ char, memory[k]? = some char ∧ char ∈ text "\": \n\t" := by
  have inside : k - tmp < ((cString (memory.drop tmp)).takeWhile (· ∈ text "\": \n\t")).length := by
    have length : (spanBehind memory tmp).beg =
      tmp + ((cString (memory.drop tmp)).takeWhile (· ∈ text "\": \n\t")).length := rfl
    omega
  have front : (cString (memory.drop tmp)).takeWhile (· ∈ text "\": \n\t") <+: memory.drop tmp :=
    (List.takeWhile_prefix _).trans (List.takeWhile_prefix _)
  have same := occurs_at front inside
  rw [Nat.add_sub_cancel' behind, List.getElem?_eq_getElem inside] at same
  exact ⟨_, same, by simpa using List.all_eq_true.mp List.all_takeWhile _ (List.getElem_mem inside)⟩

/-- A value belongs to one occurrence of its tag. -/
theorem spanBehind_inj {memory : List UInt8} {tag : Tag} {i j : Nat} (order : i ≤ j)
    (first : tag.key <+: memory.drop i) (second : tag.key <+: memory.drop j)
    (same : spanBehind memory (i + tag.key.length) = spanBehind memory (j + tag.key.length)) :
    i = j := by
  obtain ⟨letter, letters, form, unquoted, solid⟩ := key_form tag
  rw [form] at first second same
  have length : (34 :: letter :: (letters ++ [34])).length = letters.length + 3 := by simp
  rw [length] at same
  by_contra different
  have beginning : j + (letters.length + 3) ≤ (spanBehind memory (j + (letters.length + 3))).beg :=
    Nat.le_add_right _ _
  rw [← same] at beginning
  by_cases apart : i + (letters.length + 3) ≤ j + 1
  · -- the letter would be skipped
    have before : j + 1 < (spanBehind memory (i + (letters.length + 3))).beg := by omega
    have here : memory[j + 1]? = some letter := occurs_at second (by rw [length]; omega)
    obtain ⟨char, there, skipped⟩ := skipped_at apart before
    cases here.symm.trans there
    exact solid skipped
  · -- the quote of the second would be one of the letters of the first
    have quote := occurs_at second (k := 0) (by simp)
    have inside := occurs_at first (k := j - i) (by rw [length]; omega)
    rw [Nat.add_sub_cancel' order] at inside
    obtain ⟨k, place⟩ : ∃ k, j - i = k + 1 := ⟨j - i - 1, by omega⟩
    rw [Nat.add_zero, inside, place, List.getElem?_cons_succ, ← List.cons_append,
      List.getElem?_append_left (by rw [List.length_cons]; omega)] at quote
    exact unquoted (List.mem_of_getElem? quote)

/-! ## Rounds of the loop -/

def BcTxView.span (tx : BcTxView) : Tag → NuCspan
  | .data => tx.data
  | .txid => tx.txid
  | .hash => tx.hash

/-- The three values in a part of the text. -/
def viewIn (memory : List UInt8) (json : NuCspan) : Option BcTxView := do
  let data ← jsonFindTagValue memory json tagData
  let txid ← jsonFindTagValue memory json tagTxid
  let hash ← jsonFindTagValue memory json tagHash
  some ⟨txid, hash, data⟩

theorem viewIn_iff (memory : List UInt8) (json : NuCspan) (tx : BcTxView) :
    viewIn memory json = some tx ↔ ∀ tag, jsonFindTagValue memory json (Tag.key tag) =
      some (tx.span tag) := by
  constructor
  · intro found tag
    obtain ⟨data, dataFound, found⟩ := Option.bind_eq_some_iff.mp found
    obtain ⟨txid, txidFound, found⟩ := Option.bind_eq_some_iff.mp found
    obtain ⟨hash, hashFound, found⟩ := Option.bind_eq_some_iff.mp found
    cases found
    cases tag with
    | data => exact dataFound
    | txid => exact txidFound
    | hash => exact hashFound
  · intro found
    have data : jsonFindTagValue memory json tagData = some tx.data := found .data
    have txid : jsonFindTagValue memory json tagTxid = some tx.txid := found .txid
    have hash : jsonFindTagValue memory json tagHash = some tx.hash := found .hash
    rw [viewIn, data, txid, hash]
    rfl

/-- The end of the value that reaches furthest. -/
def furthest (tx : BcTxView) : Nat := max (max tx.data.fin tx.txid.fin) tx.hash.fin

theorem scanRound_eq (memory : List UInt8) (tmp fin : Nat) :
    scanRound memory tmp fin = (viewIn memory ⟨tmp, fin⟩).map fun tx => (tx, furthest tx) := by
  cases data : jsonFindTagValue memory ⟨tmp, fin⟩ tagData with
  | none => simp [scanRound, viewIn, data]
  | some dataSpan =>
    cases txid : jsonFindTagValue memory ⟨tmp, fin⟩ tagTxid with
    | none => simp [scanRound, viewIn, data, txid]
    | some txidSpan =>
      cases hash : jsonFindTagValue memory ⟨tmp, fin⟩ tagHash with
      | none => simp [scanRound, viewIn, data, txid, hash]
      | some hashSpan =>
        have behind : tmp + tagData.length ≤ dataSpan.beg ∧ dataSpan.beg ≤ dataSpan.fin :=
          jsonFindTagValue_ge data
        have larger : max tmp dataSpan.fin = dataSpan.fin := max_eq_right (by omega)
        rw [scanRound_found data txid hash, larger]
        simp [viewIn, data, txid, hash, furthest]

section

variable {memory : List UInt8} (noNul : ∀ char ∈ memory, char ≠ 0)

include noNul

/-- Looked for from elsewhere and without an end, a value is found where its tag is found. -/
theorem find_same_iff {cursor start fin : Nat} {tag : Tag} {span : NuCspan}
    (inside : fin ≤ memory.length)
    (found : jsonFindTagValue memory ⟨start, fin⟩ tag.key = some span) :
    jsonFindTagValue memory ⟨cursor, memory.length⟩ tag.key = some span ↔
      strstr memory cursor tag.key = strstr memory start tag.key := by
  obtain ⟨i, first, value, bound⟩ := (jsonFindTagValue_iff memory _ _ _).mp found
  have occurs := (strstr_spec noNul first).1
  rw [jsonFindTagValue_iff, show strstr memory start tag.key = some i from first]
  constructor
  · rintro ⟨k, first', value', -⟩
    have occurs' := (strstr_spec noNul first').1
    -- the same value has the same tag
    have same : k = i := by
      cases Nat.le_total k i with
      | inl order => exact spanBehind_inj order occurs' occurs (value'.trans value.symm)
      | inr order => exact (spanBehind_inj order occurs occurs' (value.trans value'.symm)).symm
    exact same ▸ first'
  · intro same
    exact ⟨i, same, value, Nat.le_trans bound inside⟩

theorem viewIn_same_iff {cursor start fin : Nat} {tx : BcTxView} (inside : fin ≤ memory.length)
    (found : viewIn memory ⟨start, fin⟩ = some tx) :
    viewIn memory ⟨cursor, memory.length⟩ = some tx ↔
      ∀ tag, strstr memory cursor (Tag.key tag) = strstr memory start tag.key := by
  rw [viewIn_iff] at found ⊢
  exact forall_congr' fun tag => find_same_iff noNul inside (found tag)

end

/-- Without an end in front of that of the text, a value is found wherever its tag is. -/
theorem find_whole_iff (memory : List UInt8) (ptr : Nat) {tag : List UInt8} (nonempty : tag ≠ []) :
    (jsonFindTagValue memory ⟨ptr, memory.length⟩ tag).isSome ↔ (strstr memory ptr tag).isSome := by
  cases first : strstr memory ptr tag with
  | none => simp [jsonFindTagValue, first]
  | some i =>
    have inside := strstr_inside first nonempty
    have bound : (spanBehind memory (i + tag.length)).fin ≤ memory.length := spanBehind_le inside
    have found := (jsonFindTagValue_iff memory ⟨ptr, memory.length⟩ tag _).mpr
      ⟨i, first, rfl, bound⟩
    simp [found]

/-- A round finds something to deliver where all three tags are ahead. -/
theorem viewIn_whole_iff (memory : List UInt8) (cursor : Nat) :
    (viewIn memory ⟨cursor, memory.length⟩).isSome ↔
      ∀ tag, (strstr memory cursor (Tag.key tag)).isSome := by
  constructor
  · intro found tag
    obtain ⟨tx, view⟩ := Option.isSome_iff_exists.mp found
    have value := (viewIn_iff memory _ tx).mp view tag
    exact (find_whole_iff memory cursor (key_ne_nil tag)).mp (by rw [value]; rfl)
  · intro ahead
    have all : ∀ tag, ∃ span, jsonFindTagValue memory ⟨cursor, memory.length⟩ (Tag.key tag) =
        some span := fun tag =>
      Option.isSome_iff_exists.mp ((find_whole_iff memory cursor (key_ne_nil tag)).mpr (ahead tag))
    choose span found using all
    have view : viewIn memory ⟨cursor, memory.length⟩ =
        some ⟨span .txid, span .hash, span .data⟩ := by
      refine (viewIn_iff memory _ _).mpr fun tag => ?_
      cases tag with
      | data => exact found .data
      | txid => exact found .txid
      | hash => exact found .hash
    rw [view]
    rfl

theorem viewIn_missing {memory : List UInt8} {cursor : Nat} (tag : Tag)
    (absent : strstr memory cursor tag.key = none) :
    viewIn memory ⟨cursor, memory.length⟩ = none := by
  rw [← Option.not_isSome_iff_eq_none, viewIn_whole_iff]
  intro ahead
  have found := ahead tag
  rw [absent] at found
  cases found

/-! ## The deliveries -/

/-- Where objects are in a text, the first of which begins at `start`. -/
def extents (start : Nat) : List (List UInt8) → List NuCspan
  | [] => []
  | object :: objects => ⟨start, start + object.length⟩ :: extents (start + object.length) objects

/-- Each object has its three values, and these are the views. -/
def OwnViews (memory : List UInt8) (objects : List NuCspan) (views : List BcTxView) : Prop :=
  List.Forall₂ (fun object tx => viewIn memory object = some tx) objects views

/-- The callback returns 0 for all of them, one after the other. -/
def Accepted (cb : σ → BcTxView → Int × σ) (userPtr : σ) : List BcTxView → Prop
  | [] => True
  | tx :: views => (cb userPtr tx).1 = 0 ∧ Accepted cb (cb userPtr tx).2 views

/-- Those of the calls that the callback returns 0 for. -/
def accepted (cb : σ → BcTxView → Int × σ) (userPtr : σ) : List BcTxView → List BcTxView
  | [] => []
  | tx :: calls =>
    let rest := accepted cb (cb userPtr tx).2 calls
    if (cb userPtr tx).1 = 0 then tx :: rest else rest

/-- The first of each tag that is ahead of `cursor` is the first in the object. -/
def FirstAhead (memory : List UInt8) (cursor : Nat) (object : NuCspan) : Prop :=
  ∀ tag, strstr memory cursor (Tag.key tag) = strstr memory object.beg tag.key

/-- All objects are ahead of `cursor`, to be found one after the other, each search going on behind
the furthest value of the one before; among them there may be values of all three tags that are no
object's. -/
inductive Ahead (memory : List UInt8) : Nat → List NuCspan → List BcTxView → Prop where
  | done (cursor : Nat) : Ahead memory cursor [] []
  | own {cursor : Nat} {object : NuCspan} {objects : List NuCspan} {tx : BcTxView}
      {views : List BcTxView} (found : viewIn memory object = some tx)
      (first : FirstAhead memory cursor object) (rest : Ahead memory (furthest tx) objects views) :
      Ahead memory cursor (object :: objects) (tx :: views)
  | stray {cursor : Nat} {objects : List NuCspan} {tx : BcTxView} {views : List BcTxView}
      (found : viewIn memory ⟨cursor, memory.length⟩ = some tx)
      (rest : Ahead memory (furthest tx) objects views) : Ahead memory cursor objects (tx :: views)

section

variable {memory : List UInt8} {cb : σ → BcTxView → Int × σ} {cursor : Nat} {userPtr : σ}

theorem scanLoop_refused {fin next : Nat} {tx : BcTxView} (inside : cursor < fin)
    (round : scanRound memory cursor fin = some (tx, next)) (refused : (cb userPtr tx).1 ≠ 0) :
    scanLoop memory fin cb cursor userPtr = ([tx], (cb userPtr tx).2) := by
  rw [scanLoop, if_pos inside]
  split
  · simp_all
  · rename_i tx' next' round'
    obtain ⟨rfl, rfl⟩ : tx = tx' ∧ next = next' := by simpa [round] using round'
    simp only [refused, ne_eq, not_false_eq_true, if_true]

theorem scanLoop_none (missing : viewIn memory ⟨cursor, memory.length⟩ = none) :
    scanLoop memory memory.length cb cursor userPtr = ([], userPtr) := by
  apply scanLoop_stops
  intro _
  rw [scanRound_eq, missing]
  rfl

/-- The values of a view stay in the part of the text, behind their tags. -/
theorem viewIn_spans {tx : BcTxView} {fin : Nat} (view : viewIn memory ⟨cursor, fin⟩ = some tx)
    (tag : Tag) :
    cursor + tag.key.length ≤ (tx.span tag).beg ∧ (tx.span tag).beg ≤ (tx.span tag).fin ∧
      (tx.span tag).fin ≤ fin := by
  have found := (viewIn_iff memory _ tx).mp view tag
  obtain ⟨i, -, -, bound⟩ := (jsonFindTagValue_iff memory _ _ _).mp found
  obtain ⟨behind, ordered⟩ := jsonFindTagValue_ge found
  exact ⟨behind, ordered, bound⟩

theorem scanRound_view {tx : BcTxView} {fin : Nat} (view : viewIn memory ⟨cursor, fin⟩ = some tx) :
    scanRound memory cursor fin = some (tx, furthest tx) := by
  rw [scanRound_eq, view]
  rfl

theorem viewIn_inside {tx : BcTxView} {fin : Nat} (view : viewIn memory ⟨cursor, fin⟩ = some tx) :
    cursor < fin ∧ furthest tx ≤ fin := by
  have bounds : ∀ tag, cursor < (tx.span tag).fin ∧ (tx.span tag).fin ≤ fin := by
    intro tag
    have spans := viewIn_spans view tag
    have long := List.length_pos_iff.mpr (key_ne_nil tag)
    exact ⟨by omega, spans.2.2⟩
  have data : cursor < tx.data.fin ∧ tx.data.fin ≤ fin := bounds .data
  have txid : cursor < tx.txid.fin ∧ tx.txid.fin ≤ fin := bounds .txid
  have hash : cursor < tx.hash.fin ∧ tx.hash.fin ≤ fin := bounds .hash
  simp only [furthest]
  omega

theorem scanLoop_some {tx : BcTxView} (view : viewIn memory ⟨cursor, memory.length⟩ = some tx) :
    (scanLoop memory memory.length cb cursor userPtr).1 =
      if (cb userPtr tx).1 = 0
        then tx :: (scanLoop memory memory.length cb (furthest tx) (cb userPtr tx).2).1
      else [tx] := by
  have inside := (viewIn_inside view).1
  have round := scanRound_view view
  by_cases accepted : (cb userPtr tx).1 = 0
  · rw [if_pos accepted, scanLoop_accepted inside round accepted]
  · rw [if_neg accepted, scanLoop_refused inside round accepted]

/-- What the callback leaves as it is, the loop leaves as it is. -/
theorem scanLoop_invariant {fin : Nat} (P : σ → Prop)
    (kept : ∀ userPtr tx, P userPtr → P (cb userPtr tx).2) (tmp : Nat) (userPtr : σ)
    (before : P userPtr) : P (scanLoop memory fin cb tmp userPtr).2 := by
  fun_induction scanLoop memory fin cb tmp userPtr with
  | case1 => exact before
  | case2 tmp userPtr inside tx next round progress ec after called refused =>
    have stepped := kept userPtr tx before
    rwa [called] at stepped
  | case3 tmp userPtr inside tx next round progress ec after called accepted calls later run
    inductionHypothesis =>
    have stepped := kept userPtr tx before
    rw [called] at stepped
    have whole := inductionHypothesis stepped
    rwa [run] at whole
  | case4 => exact before

/-- What the callback is called with. -/
def deliveries (memory : List UInt8) (cb : σ → BcTxView → Int × σ) (cursor : Nat) (userPtr : σ) :
    List BcTxView :=
  (scanLoop memory memory.length cb cursor userPtr).1

/-- A call is a round that finds something, and further calls need a callback that returns 0. -/
theorem deliveries_cons {tx : BcTxView} {calls : List BcTxView}
    (called : deliveries memory cb cursor userPtr = tx :: calls) :
    viewIn memory ⟨cursor, memory.length⟩ = some tx ∧
      calls = if (cb userPtr tx).1 = 0 then deliveries memory cb (furthest tx) (cb userPtr tx).2
        else [] := by
  cases view : viewIn memory ⟨cursor, memory.length⟩ with
  | none =>
    rw [deliveries, scanLoop_none view] at called
    cases called
  | some tx' =>
    rw [deliveries, scanLoop_some view] at called
    split_ifs at called with taken
    · obtain ⟨rfl, rest⟩ := List.cons.inj called
      exact ⟨rfl, by rw [if_pos taken, ← rest, deliveries]⟩
    · obtain ⟨rfl, rest⟩ := List.cons.inj called
      exact ⟨rfl, by rw [if_neg taken, rest]⟩

theorem deliveries_taken {tx : BcTxView} (view : viewIn memory ⟨cursor, memory.length⟩ = some tx)
    (taken : (cb userPtr tx).1 = 0) :
    deliveries memory cb cursor userPtr =
      tx :: deliveries memory cb (furthest tx) (cb userPtr tx).2 := by
  rw [deliveries, scanLoop_some view, if_pos taken, deliveries]

/-- Objects whose own values are among the accepted calls are ahead. -/
theorem ahead_of_accepted (noNul : ∀ char ∈ memory, char ≠ 0) {objects : List NuCspan}
    (inside : ∀ object ∈ objects, object.fin ≤ memory.length) {own : List BcTxView}
    (views : OwnViews memory objects own)
    (kept : own.Sublist (accepted cb userPtr (deliveries memory cb cursor userPtr))) :
    ∃ views, Ahead memory cursor objects views ∧ Accepted cb userPtr views := by
  -- induction on the calls, so on the rounds of the loop
  generalize called : deliveries memory cb cursor userPtr = calls at kept
  induction calls generalizing cursor userPtr objects own with
  | nil =>
    obtain rfl := List.sublist_nil.mp kept
    cases views
    exact ⟨[], Ahead.done cursor, trivial⟩
  | cons tx calls inductionHypothesis =>
    obtain ⟨view, rest⟩ := deliveries_cons called
    by_cases taken : (cb userPtr tx).1 = 0
    · rw [if_pos taken] at rest
      rw [accepted, if_pos taken] at kept
      cases kept with
      | cons _ kept =>
        obtain ⟨later, ahead, all⟩ := inductionHypothesis inside views rest.symm kept
        exact ⟨tx :: later, Ahead.stray view ahead, taken, all⟩
      | cons_cons _ kept =>
        cases views with
        | @cons object _ objects _ found views =>
          have within := inside object List.mem_cons_self
          have first := (viewIn_same_iff noNul within found).mp view
          obtain ⟨later, ahead, all⟩ := inductionHypothesis
            (fun object member => inside object (List.mem_cons_of_mem _ member))
              views rest.symm kept
          exact ⟨tx :: later, Ahead.own found first ahead, taken, all⟩
    · -- the loop has ended with the refused call
      rw [if_neg taken] at rest
      subst rest
      rw [accepted, if_neg taken] at kept
      obtain rfl := List.sublist_nil.mp kept
      cases views
      exact ⟨[], Ahead.done cursor, trivial⟩

theorem accepted_of_ahead (noNul : ∀ char ∈ memory, char ≠ 0) {objects : List NuCspan}
    (inside : ∀ object ∈ objects, object.fin ≤ memory.length) {views : List BcTxView}
    (ahead : Ahead memory cursor objects views) (all : Accepted cb userPtr views) :
    ∃ own, OwnViews memory objects own ∧
      own.Sublist (accepted cb userPtr (deliveries memory cb cursor userPtr)) := by
  induction ahead generalizing userPtr with
  | done cursor => exact ⟨[], List.Forall₂.nil, List.nil_sublist _⟩
  | @own cursor object objects tx views found first ahead inductionHypothesis =>
    obtain ⟨taken, all⟩ := all
    have view := (viewIn_same_iff noNul (inside object List.mem_cons_self) found).mpr first
    obtain ⟨own, views, kept⟩ := inductionHypothesis
      (fun object member => inside object (List.mem_cons_of_mem _ member)) all
    refine ⟨tx :: own, List.Forall₂.cons found views, ?_⟩
    rw [deliveries_taken view taken, accepted, if_pos taken]
    exact kept.cons_cons tx
  | @stray cursor objects tx views view ahead inductionHypothesis =>
    obtain ⟨taken, all⟩ := all
    obtain ⟨own, views, kept⟩ := inductionHypothesis inside all
    refine ⟨own, views, ?_⟩
    rw [deliveries_taken view taken, accepted, if_pos taken]
    exact kept.cons tx

end

theorem extents_inside {start : Nat} {objects : List (List UInt8)} {object : NuCspan}
    (member : object ∈ extents start objects) : object.fin ≤ start + objects.flatten.length := by
  induction objects generalizing start with
  | nil => cases member
  | cons first objects inductionHypothesis =>
    rw [List.flatten_cons, List.length_append]
    cases List.mem_cons.mp member with
    | inl same =>
      rw [same]
      dsimp only
      omega
    | inr later =>
      have := inductionHypothesis later
      omega

/-! ## Texts with an array of transactions -/

/-- The objects are cut out of the text in any way; each goes on to where the next begins. -/
structure Listing where
  front : List UInt8
  /-- The character behind the key of the array. -/
  next : UInt8
  objects : List (List UInt8)
  back : List UInt8
  noNul : ∀ char ∈ front ++ (tagTxns ++ (next :: (objects.flatten ++ back))), char ≠ 0

namespace Listing

variable (listing : Listing)

def text : List UInt8 :=
  listing.front ++ (tagTxns ++ (listing.next :: (listing.objects.flatten ++ listing.back)))

def extents : List NuCspan :=
  Json.extents (listing.front.length + (tagTxns.length + 1)) listing.objects

/-- The scan begins behind the first occurrence of the key, which may be in front of the array's. -/
def cursor : Nat := (strstr listing.text 0 tagTxns).getD 0 + (tagTxns.length + 1)

theorem strstr_txns : ∃ i, strstr listing.text 0 tagTxns = some i := by
  have here : tagTxns <+: listing.text.drop listing.front.length := by
    rw [text, List.drop_left]
    exact List.prefix_append _ _
  cases first : strstr listing.text 0 tagTxns with
  | none => exact absurd here (strstr_absent listing.noNul (by decide) first (Nat.zero_le _))
  | some i => exact ⟨i, rfl⟩

theorem cursor_eq {i : Nat} (first : strstr listing.text 0 tagTxns = some i) :
    listing.cursor = i + (tagTxns.length + 1) := by
  rw [cursor, first]
  rfl

theorem extents_le : ∀ object ∈ listing.extents, object.fin ≤ listing.text.length := by
  intro object member
  have inside := extents_inside member
  simp only [text, List.length_append, List.length_cons]
  omega

/-- If the result is 0, the callback has returned 0 for the values of each object, in the order of
the array. -/
def Keeps (cb : σ → BcTxView → Int × σ) (userPtr : σ) : Prop :=
  let (ret, calls, _) := jsonBlocktemplateTxScan listing.text ⟨0, listing.text.length⟩ cb userPtr
  ret = 0 → ∃ own, OwnViews listing.text listing.extents own ∧
    own.Sublist (accepted cb userPtr calls)

/-- The result is always 0. -/
theorem keeps_iff (cb : σ → BcTxView → Int × σ) (userPtr : σ) :
    listing.Keeps cb userPtr ↔ ∃ own, OwnViews listing.text listing.extents own ∧
      own.Sublist (accepted cb userPtr (deliveries listing.text cb listing.cursor userPtr)) := by
  obtain ⟨i, first⟩ := listing.strstr_txns
  simp only [Keeps, jsonBlocktemplateTxScan, first, forall_const, listing.cursor_eq first]
  rfl

end Listing

/-- One object in the array, and a coinbase transaction behind it that is delivered as well. -/
def coinbaseBehind : Listing where
  front := text "\x7b"
  next := 58
  objects := [text "[\x7b\"txid\":\"1a\",\"data\":\"00\",\"hash\":\"2b\"\x7d"]
  back := text "],\"coinbasetxn\":\x7b\"data\":\"00\",\"txid\":\"3c\",\"hash\":\"4d\"\x7d\x7d"
  noNul := all_chars (by decide)

theorem coinbaseBehind_view : ∀ object ∈ coinbaseBehind.extents,
    viewIn coinbaseBehind.text object = some ⟨⟨26, 28⟩, ⟨50, 52⟩, ⟨38, 40⟩⟩ := by decide

example : coinbaseBehind.Keeps (fun (_ : Unit) _ => (0, ())) () := by
  refine (coinbaseBehind.keeps_iff _ ()).mpr
    (accepted_of_ahead coinbaseBehind.noNul coinbaseBehind.extents_le
      (Ahead.own (coinbaseBehind_view _ List.mem_cons_self) ?_ (Ahead.done _)) ⟨rfl, trivial⟩)
  intro tag
  cases tag <;> decide

/-- `\x7b"transactions":[\x7b"txid":"1a","data":"00","hash":"2b"\x7d]\x7d` -/
def wholeObject : Listing where
  front := text "\x7b"
  next := 58
  objects := [text "[\x7b\"txid\":\"1a\",\"data\":\"00\",\"hash\":\"2b\"\x7d"]
  back := text "]\x7d"
  noNul := all_chars (by decide)

/-- The same text with an object that has no hash. -/
def noHash : Listing where
  front := text "\x7b"
  next := 58
  objects := [text "[\x7b\"txid\":\"1a\",\"data\":\"00\"\x7d"]
  back := text "]\x7d"
  noNul := all_chars (by decide)

theorem noHash_views : ∀ object ∈ noHash.extents, viewIn noHash.text object = none := by decide

theorem accepted_none (calls : List BcTxView) :
    accepted (fun (_ : Unit) _ => ((1 : Int), ())) () calls = [] := by
  induction calls with
  | nil => rfl
  | cons tx calls inductionHypothesis => exact inductionHypothesis

end NuLab.Json
