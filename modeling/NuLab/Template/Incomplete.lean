import NuLab.Json.Dropped
import NuLab.Merkle.Root
import NuLab.Template.Code

/-! # Incomplete templates

The program checks for one thing only, the key of the array.  A missing height, mintime
or bits is read through NULL, an array without transactions ends in the first element of
no root, and the hashes that are missing are found out by an assertion, which aborts.
-/

namespace NuLab.Template

open NuLab.CString NuLab.Dca NuLab.Hex NuLab.Json NuLab.Merkle

/-! ## Runs with their ends -/

/-- Why a run does not return. -/
inductive Stop where
  /-- An assertion fails, that of the allocator on a refused request or that on
  the length of a hash. -/
  | assertion
  /-- A read through the pointer of a span that is NULL. -/
  | nullSpan
  /-- A read of the first element of a Merkle result without elements. -/
  | noElement
deriving DecidableEq

/-- What a partial step stops with where it has no result. -/
def orStop {α : Type} (stop : Stop) : Option α → Except Stop α
  | some a => .ok a
  | none => .error stop

/-- The loop that decodes the hashes. -/
def decodeTxids (memory : List UInt8) (txArr : List BcTxView) : Except Stop (List BcHash32) :=
  txArr.mapM fun txPtr => orStop .assertion (bcHash32FromCspan memory txPtr.hash)

def runAssemble (memory : List UInt8) (json : NuCspan) (merkleRoot : BcHash32) :
    Except Stop BcBlockHeader := do
  let targetData := jsonFindTarget memory json
  let prevBlockData := jsonFindPrevblock memory json
  let bitsData := jsonFindBits memory json
  let mintimeData := jsonFindMintime memory json
  let heightData := jsonFindHeight memory json
  let _height ← orStop .nullSpan (heightData.map fun span => strtoul memory span.beg 10)
  let mintime ← orStop .nullSpan (mintimeData.map fun span => (strtoul memory span.beg 10).toUInt32)
  let bits ← orStop .nullSpan (bitsData.map fun span => (strtoul memory span.beg 16).toUInt32)
  let _target ← orStop .assertion (targetData.bind (bcHash32FromCspan memory))
  let prevBlock ← orStop .assertion (prevBlockData.bind (bcHash32FromCspan memory))
  return {
    version := 0x20000000
    hashPrevBlock := prevBlock
    hashMerkleRoot := merkleRoot
    timestamp := mintime
    bits := bits
    nonce := 0 }

def runTemplate (mem : Allocations) (memory : List UInt8) :
    Except Stop (Int × Option BcBlockHeader) := do
  let json := ⟨0, memory.length⟩
  let (ec, txArr) ← orStop .assertion (readTxsFromJson mem.views memory [] json)
  if ec ≠ 0 then .ok (-1, none)
  else do
    let _txidPtr ← orStop .assertion (consumeElems [] txArr.length mem.txids)
    let txidArr ← decodeTxids memory txArr
    let (_, _, mrTmpArr) ← orStop .assertion (bcMerkleRoot txidArr [] mem.merkle)
    let merkleRoot ← orStop .noElement mrTmpArr[0]?
    let block ← runAssemble memory json merkleRoot
    return (0, some block)

/-- `main` with the reason why it does not return; nothing is stored of an empty file. -/
def run (argc : Nat) (file : Option (List UInt8)) (mem : Allocations) :
    Except Stop (Int × Option BcBlockHeader) :=
  if argc ≠ 2 then .ok (-1, none)
  else
    match file with
    | none => .ok (-1, none)
    | some [] => .error .nullSpan
    | some memory => runTemplate mem memory

@[simp] theorem orStop_toOption {α : Type} (stop : Stop) (a : Option α) :
    (orStop stop a).toOption = a := by
  cases a with
  | none => rfl
  | some a => rfl

theorem toOption_bind {α γ : Type} (first : Except Stop α) (next : α → Except Stop γ) :
    (first >>= next).toOption = first.toOption.bind fun a => (next a).toOption := by
  cases first with
  | error stop => rfl
  | ok a => rfl

theorem decodeTxids_cons (memory : List UInt8) (tx : BcTxView) (txArr : List BcTxView) :
    decodeTxids memory (tx :: txArr) = (do
      let hash ← orStop .assertion (bcHash32FromCspan memory tx.hash)
      let rest ← decodeTxids memory txArr
      return hash :: rest) := by
  rw [decodeTxids, List.mapM_cons]
  rfl

theorem decodeTxids_toOption (memory : List UInt8) (txArr : List BcTxView) :
    (decodeTxids memory txArr).toOption =
      txArr.mapM fun txPtr => bcHash32FromCspan memory txPtr.hash := by
  induction txArr with
  | nil => rfl
  | cons tx txArr inductionHypothesis =>
    simp only [decodeTxids_cons, toOption_bind, orStop_toOption,
      inductionHypothesis, List.mapM_cons]
    rfl

theorem runAssemble_toOption (memory : List UInt8) (json : NuCspan) (merkleRoot : BcHash32) :
    (runAssemble memory json merkleRoot).toOption = assemble memory json merkleRoot := by
  simp only [runAssemble, assemble, toOption_bind, orStop_toOption]
  rfl

theorem runTemplate_toOption (mem : Allocations) (memory : List UInt8) :
    (runTemplate mem memory).toOption = parseTemplate mem memory := by
  rw [runTemplate, parseTemplate, toOption_bind, orStop_toOption]
  refine congrArg _ (funext fun (ec, txArr) => ?_)
  by_cases failed : ec ≠ 0
  · simp only [if_pos failed]
    rfl
  · simp only [if_neg failed, toOption_bind, decodeTxids_toOption, orStop_toOption,
      runAssemble_toOption]
    rfl

/-- The runs are those of the program. -/
theorem run_toOption (argc : Nat) (file : Option (List UInt8)) (mem : Allocations) :
    (run argc file mem).toOption = main argc file mem := by
  unfold run main
  by_cases two : argc ≠ 2
  · rw [if_pos two, if_pos two]
    rfl
  · rw [if_neg two, if_neg two]
    cases file with
    | none => rfl
    | some memory =>
      cases memory with
      | nil => rfl
      | cons first rest => exact runTemplate_toOption mem (first :: rest)

/-! ## The transactions that are stored -/

/-- The views that the scanner hands to the callback. -/
def delivered (mem : Nat → Bool) (memory : List UInt8) : List BcTxView :=
  (jsonBlocktemplateTxScan memory ⟨0, memory.length⟩ (txViewDcaAppend mem) (some [])).2.1

/-- One is delivered exactly where the three tags occur behind the key. -/
theorem delivered_iff (mem : Nat → Bool) (memory : List UInt8) :
    delivered mem memory ≠ [] ↔ ∃ i, strstr memory 0 tagTxns = some i ∧
      ∀ tag, (strstr memory (i + (tagTxns.length + 1)) (Tag.key tag)).isSome := by
  cases first : strstr memory 0 tagTxns with
  | none => simp [delivered, jsonBlocktemplateTxScan, first]
  | some i =>
    simp only [delivered, jsonBlocktemplateTxScan, first, Option.some.injEq, exists_eq_left']
    rw [← viewIn_whole_iff]
    cases view : viewIn memory ⟨i + (tagTxns.length + 1), memory.length⟩ with
    | none => simp [scanLoop_none view]
    | some tx =>
      rw [scanLoop_some view]
      split_ifs <;> simp

theorem txViewDcaAppend_cases {mem : Nat → Bool} {txs : Option (List BcTxView)} {tx : BcTxView}
    {ec : Int} {after : Option (List BcTxView)}
    (called : txViewDcaAppend mem txs tx = (ec, after)) :
    (ec ≠ 0 ∧ after = none) ∨
      (ec = 0 ∧ ∃ list, txs = some list ∧ after = some (list ++ [tx])) := by
  cases txs with
  | none =>
    obtain ⟨rfl, rfl⟩ := Prod.mk.inj called
    exact Or.inl ⟨by decide, rfl⟩
  | some list =>
    simp only [txViewDcaAppend] at called
    split_ifs at called
    · obtain ⟨rfl, rfl⟩ := Prod.mk.inj called
      exact Or.inr ⟨rfl, list, rfl, rfl⟩
    · obtain ⟨rfl, rfl⟩ := Prod.mk.inj called
      exact Or.inl ⟨by decide, rfl⟩

/-- A program that goes on has stored all that was delivered. -/
theorem scanLoop_stored {mem : Nat → Bool} {memory : List UInt8} {fin : Nat} (tmp : Nat)
    (txs : Option (List BcTxView)) {after : List BcTxView}
    (served : (scanLoop memory fin (txViewDcaAppend mem) tmp txs).2 = some after) :
    ∃ list, txs = some list ∧
      after = list ++ (scanLoop memory fin (txViewDcaAppend mem) tmp txs).1 := by
  fun_induction scanLoop memory fin (txViewDcaAppend mem) tmp txs with
  | case1 => exact ⟨after, served, (List.append_nil _).symm⟩
  | case2 tmp txs inside tx next round progress ec stored called refused =>
    rcases txViewDcaAppend_cases called with ⟨-, rfl⟩ | ⟨taken, -⟩
    · cases served
    · exact absurd taken refused
  | case3 tmp txs inside tx next round progress ec stored called taken calls later run
      inductionHypothesis =>
    rw [run] at inductionHypothesis
    obtain ⟨more, stores, rfl⟩ := inductionHypothesis served
    rcases txViewDcaAppend_cases called with ⟨refused, -⟩ | ⟨-, list, rfl, rfl⟩
    · exact absurd refused taken
    · obtain rfl := Option.some.inj stores
      exact ⟨list, rfl, List.append_assoc list [tx] calls⟩
  | case4 => exact ⟨after, served, (List.append_nil _).symm⟩

theorem readTxsFromJson_stored {mem : Nat → Bool} {memory : List UInt8} {ec : Int}
    {txArr : List BcTxView}
    (scanned : readTxsFromJson mem memory [] ⟨0, memory.length⟩ = some (ec, txArr)) :
    txArr = delivered mem memory ∧ ec = if strstr memory 0 tagTxns = none then -1 else 0 := by
  cases first : strstr memory 0 tagTxns with
  | none =>
    simp only [readTxsFromJson, jsonBlocktemplateTxScan, first, Option.map_some] at scanned
    cases scanned
    simp [delivered, jsonBlocktemplateTxScan, first]
  | some i =>
    rw [readTxsFromJson_some first] at scanned
    obtain ⟨after, served, same⟩ := Option.map_eq_some_iff.mp scanned
    obtain ⟨list, empty, stored⟩ := scanLoop_stored _ _ served
    cases empty
    cases same
    simp only [delivered, jsonBlocktemplateTxScan, first]
    exact ⟨stored, by simp⟩

/-! ## How runs end -/

theorem bind_error_iff {α γ : Type} {first : Except Stop α} {next : α → Except Stop γ}
    {stop : Stop} :
    first >>= next = .error stop ↔ first = .error stop ∨ ∃ a, first = .ok a ∧
      next a = .error stop := by
  cases first with
  | error reason =>
    constructor
    · intro same
      cases same
      exact Or.inl rfl
    · rintro (same | ⟨a, value, -⟩)
      · cases same
        rfl
      · cases value
  | ok a =>
    constructor
    · exact fun stopped => Or.inr ⟨a, rfl, stopped⟩
    · rintro (reason | ⟨b, value, stopped⟩)
      · cases reason
      · cases value
        exact stopped

theorem orStop_error_iff {α : Type} {reason stop : Stop} {a : Option α} :
    orStop reason a = .error stop ↔ a = none ∧ reason = stop := by
  cases a with
  | none => simp [orStop]
  | some a => simp [orStop]

theorem decodeTxids_error {memory : List UInt8} {txArr : List BcTxView} {stop : Stop}
    (stopped : decodeTxids memory txArr = .error stop) : stop = .assertion := by
  induction txArr with
  | nil => cases stopped
  | cons tx txArr inductionHypothesis =>
    rw [decodeTxids_cons] at stopped
    simp only [bind_error_iff, orStop_error_iff] at stopped
    rcases stopped with ⟨-, rfl⟩ | ⟨hash, -, rest | ⟨hashes, -, last⟩⟩
    · rfl
    · exact inductionHypothesis rest
    · cases last

theorem decodeTxids_ok {memory : List UInt8} {txArr : List BcTxView} {hashes : List BcHash32}
    (decoded : decodeTxids memory txArr = .ok hashes) (some : txArr ≠ []) : hashes ≠ [] := by
  cases txArr with
  | nil => exact absurd rfl some
  | cons tx txArr =>
    rintro rfl
    have value := congrArg Except.toOption decoded
    rw [decodeTxids_cons] at value
    simp only [toOption_bind, orStop_toOption] at value
    obtain ⟨hash, -, value⟩ := Option.bind_eq_some_iff.mp value
    obtain ⟨rest, -, value⟩ := Option.bind_eq_some_iff.mp value
    cases value

theorem runAssemble_error {memory : List UInt8} {json : NuCspan} {merkleRoot : BcHash32}
    {stop : Stop} (stopped : runAssemble memory json merkleRoot = .error stop) :
    stop = .assertion ∨ (stop = .nullSpan ∧ ¬ ((jsonFindHeight memory json).isSome ∧
      (jsonFindMintime memory json).isSome ∧ (jsonFindBits memory json).isSome)) := by
  simp only [runAssemble, bind_error_iff, orStop_error_iff, Option.map_eq_none_iff] at stopped
  rcases stopped with ⟨missing, rfl⟩ |
    ⟨_, -, ⟨missing, rfl⟩ | ⟨_, -, ⟨missing, rfl⟩ | ⟨_, -, later⟩⟩⟩
  · exact Or.inr ⟨rfl, by simp [missing]⟩
  · exact Or.inr ⟨rfl, by simp [missing]⟩
  · exact Or.inr ⟨rfl, by simp [missing]⟩
  · rcases later with ⟨-, rfl⟩ | ⟨_, -, ⟨-, rfl⟩ | ⟨_, -, last⟩⟩
    · exact Or.inl rfl
    · exact Or.inl rfl
    · cases last

/-! ## Clean runs -/

/-- The five values are found in the text, and a transaction is found and stored. -/
structure Finds (mem : Allocations) (memory : List UInt8) : Prop where
  target : (jsonFindTarget memory ⟨0, memory.length⟩).isSome
  prevblock : (jsonFindPrevblock memory ⟨0, memory.length⟩).isSome
  bits : (jsonFindBits memory ⟨0, memory.length⟩).isSome
  mintime : (jsonFindMintime memory ⟨0, memory.length⟩).isSome
  height : (jsonFindHeight memory ⟨0, memory.length⟩).isSome
  transaction : delivered mem.views memory ≠ []
  stored : mem.views 0

/-- What is incomplete is rejected with a failure code, and nothing is read that is not there. -/
structure Clean (mem : Allocations) (memory : List UInt8) : Prop where
  rejects : (∃ ec block, run 2 (some memory) mem = .ok (ec, block) ∧ ec ≠ 0) ∨ Finds mem memory
  noNullSpan : run 2 (some memory) mem ≠ .error .nullSpan
  hasElement : run 2 (some memory) mem ≠ .error .noElement

/-- The five tags occur, the three of a transaction occur behind the key of the array, and there
is memory for a view. -/
structure Complete (mem : Allocations) (memory : List UInt8) : Prop where
  fields : ∀ tag ∈ [tagTarget, tagPreviousblockhash, tagBits, tagMintime, tagHeight],
  (strstr memory 0 tag).isSome
  transaction : ∃ i, strstr memory 0 tagTxns = some i ∧
    ∀ tag, (strstr memory (i + (tagTxns.length + 1)) (Tag.key tag)).isSome
  stored : mem.views 0

theorem finds_iff (mem : Allocations) (memory : List UInt8) :
    Finds mem memory ↔ Complete mem memory := by
  have field : ∀ tag ∈ [tagTarget, tagPreviousblockhash, tagBits, tagMintime, tagHeight],
      ((jsonFindTagValue memory ⟨0, memory.length⟩ tag).isSome ↔ (strstr memory 0 tag).isSome) := by
    intro tag member
    apply find_whole_iff
    revert member
    revert tag
    decide
  constructor
  · intro finds
    refine ⟨fun tag member => ?_, (delivered_iff mem.views memory).mp finds.transaction,
      finds.stored⟩
    rw [← field tag member]
    simp only [List.mem_cons, List.not_mem_nil, or_false] at member
    rcases member with rfl | rfl | rfl | rfl | rfl
    · exact finds.target
    · exact finds.prevblock
    · exact finds.bits
    · exact finds.mintime
    · exact finds.height
  · intro complete
    have found : ∀ tag ∈ [tagTarget, tagPreviousblockhash, tagBits, tagMintime, tagHeight],
      (jsonFindTagValue memory ⟨0, memory.length⟩ tag).isSome := fun tag member =>
        (field tag member).mpr (complete.fields tag member)
    exact
      { target := found tagTarget (by simp)
        prevblock := found tagPreviousblockhash (by simp)
        bits := found tagBits (by simp)
        mintime := found tagMintime (by simp)
        height := found tagHeight (by simp)
        transaction := (delivered_iff mem.views memory).mpr complete.transaction
        stored := complete.stored }

theorem run_template {memory : List UInt8} (nonempty : memory ≠ []) (mem : Allocations) :
    run 2 (some memory) mem = runTemplate mem memory := by
  cases memory with
  | nil => exact absurd rfl nonempty
  | cons first rest => rfl

/-- With a transaction the result of the Merkle computation has a first element. -/
theorem bcMerkleRoot_first {txids : List BcHash32} {reply : Option (Nat → BcHash32)}
    {result : Int × List BcHash32 × List BcHash32} (some : txids ≠ [])
    (computed : bcMerkleRoot txids [] reply = Option.some result) : result.2.2[0]? ≠ none := by
  have positive : ¬ txids.length < 1 := Nat.not_lt.mpr (List.length_pos_iff.mpr some)
  cases reply with
  | none => simp [bcMerkleRoot, positive, consumeElems] at computed
  | some fresh =>
    obtain ⟨root, consumed, -, run, -, first⟩ := bcMerkleRoot_run txids [] fresh some
    rw [run, List.nil_append] at computed
    cases computed
    simp [first]

theorem runTemplate_error {mem : Allocations} {memory : List UInt8} {stop : Stop}
    (finds : Finds mem memory) (stopped : runTemplate mem memory = .error stop) :
    stop = .assertion := by
  simp only [runTemplate, bind_error_iff, orStop_error_iff] at stopped
  rcases stopped with ⟨-, rfl⟩ | ⟨⟨ec, txArr⟩, scanned, later⟩
  · rfl
  · have scanned := congrArg Except.toOption scanned
    rw [orStop_toOption] at scanned
    obtain ⟨rfl, -⟩ := readTxsFromJson_stored scanned
    dsimp only at later
    split_ifs at later with failed
    · simp only [bind_error_iff, orStop_error_iff] at later
      rcases later with ⟨-, rfl⟩ |
        ⟨elems, -, decoding | ⟨hashes, decoded, ⟨-, rfl⟩ | ⟨result, computed, later⟩⟩⟩
      · rfl
      · exact decodeTxids_error decoding
      · rfl
      · have some := decodeTxids_ok decoded finds.transaction
        have computed := congrArg Except.toOption computed
        rw [orStop_toOption] at computed
        rcases later with ⟨noElement, rfl⟩ | ⟨root, -, assembling | ⟨block, -, last⟩⟩
        · exact absurd noElement (bcMerkleRoot_first some computed)
        · rcases runAssemble_error assembling with assertion | ⟨-, missing⟩
          · exact assertion
          · exact absurd ⟨finds.height, finds.mintime, finds.bits⟩ missing
        · cases last

/-- A scan that has found the key never ends in a failure code. -/
theorem runTemplate_ok {mem : Allocations} {memory : List UInt8} {ec : Int}
    {block : Option BcBlockHeader} (ran : runTemplate mem memory = .ok (ec, block))
    (key : strstr memory 0 tagTxns ≠ none) : ec = 0 := by
  have value := congrArg Except.toOption ran
  rw [runTemplate_toOption] at value
  obtain ⟨⟨code, txArr⟩, scanned, value⟩ := Option.bind_eq_some_iff.mp value
  obtain rfl : code = 0 := by rw [(readTxsFromJson_stored scanned).2, if_neg key]
  obtain ⟨elems, -, value⟩ := Option.bind_eq_some_iff.mp value
  obtain ⟨hashes, -, value⟩ := Option.bind_eq_some_iff.mp value
  obtain ⟨result, -, value⟩ := Option.bind_eq_some_iff.mp value
  obtain ⟨root, -, value⟩ := Option.bind_eq_some_iff.mp value
  obtain ⟨header, -, value⟩ := Option.bind_eq_some_iff.mp value
  cases value
  rfl

/-- A list without transactions ends in the first element of no root. -/
theorem runTemplate_empty {mem : Allocations} {memory : List UInt8} {fresh : Nat → BcHash32}
    (scanned : readTxsFromJson mem.views memory [] ⟨0, memory.length⟩ = some (0, []))
    (granted : mem.txids = some fresh) : runTemplate mem memory = .error .noElement := by
  simp only [runTemplate, scanned, granted]
  rfl

/-- The program is clean exactly on texts without the key of the array and on complete ones. -/
theorem main_clean_iff {memory : List UInt8} (nonempty : memory ≠ []) (mem : Allocations) :
    Clean mem memory ↔ strstr memory 0 tagTxns = none ∨ Complete mem memory := by
  rw [← finds_iff]
  constructor
  · intro clean
    by_cases key : strstr memory 0 tagTxns = none
    · exact Or.inl key
    · cases clean.rejects with
      | inl failure =>
        obtain ⟨ec, block, ran, failed⟩ := failure
        rw [run_template nonempty] at ran
        exact absurd (runTemplate_ok ran key) failed
      | inr finds => exact Or.inr finds
  · rintro (absent | finds)
    · have failed : readTxsFromJson mem.views memory [] ⟨0, memory.length⟩ = some (-1, []) := by
        simp only [readTxsFromJson, jsonBlocktemplateTxScan, absent, Option.map_some]
      have rejected : run 2 (some memory) mem = .ok (-1, none) := by
        rw [run_template nonempty, runTemplate, failed]
        rfl
      exact
        { rejects := Or.inl ⟨-1, none, rejected, by decide⟩
          noNullSpan := by
            rw [rejected]
            simp
          hasElement := by
            rw [rejected]
            simp }
    · have ends : ∀ stop, run 2 (some memory) mem = .error stop → stop = .assertion := by
        intro stop stopped
        rw [run_template nonempty] at stopped
        exact runTemplate_error finds stopped
      exact
        { rejects := Or.inr finds
          noNullSpan := fun stopped => by cases ends .nullSpan stopped
          hasElement := fun stopped => by cases ends .noElement stopped }

/-- The five tags and one transaction, with values that are too short. -/
def shortTemplate : List UInt8 :=
  text
    "\x7b\"height\":0,\"mintime\":0,\"bits\":\"0\",\"target\":\"0\",\"previousblockhash\":\"0\"," ++
    text "\"transactions\":[\x7b\"data\":\"0\",\"txid\":\"0\",\"hash\":\"0\"\x7d]\x7d"

theorem shortTemplate_transaction : ∃ i, strstr shortTemplate 0 tagTxns = some i ∧
    ∀ tag ∈ [Tag.data, Tag.txid, Tag.hash],
      (strstr shortTemplate (i + (tagTxns.length + 1)) (Tag.key tag)).isSome :=
  ⟨72, by decide +kernel, by decide +kernel⟩

theorem main_clean_iff_short : Clean ⟨fun _ => true, none, none⟩ shortTemplate := by
  refine (main_clean_iff (by decide) _).mpr (Or.inr ⟨by decide +kernel, ?_, rfl⟩)
  obtain ⟨i, first, ahead⟩ := shortTemplate_transaction
  exact ⟨i, first, fun tag => ahead tag (by cases tag <;> decide)⟩

/-- `\x7b"transactions":[]\x7d` -/
def emptyList : List UInt8 := text "\x7b\"transactions\":[]\x7d"

/-- An array without transactions is not rejected. -/
theorem main_reads_no_root :
    ¬ ∀ memory mem, memory ≠ [] → (∀ char ∈ memory, char ≠ 0) → Clean mem memory := by
  intro always
  let mem : Allocations :=
    ⟨fun _ => true, some fun _ => Vector.replicate 32 0, some fun _ => Vector.replicate 32 0⟩
  have clean := always emptyList mem (by decide) (all_chars (by decide))
  have key : strstr emptyList 0 tagTxns = some 1 := by decide
  have missing : strstr emptyList 16 tagData = none := by decide
  have nothing : viewIn emptyList ⟨16, emptyList.length⟩ = none := viewIn_missing .data missing
  have empty : readTxsFromJson mem.views emptyList [] ⟨0, emptyList.length⟩ = some (0, []) := by
    rw [readTxsFromJson_some key]
    show (scanLoop emptyList emptyList.length _ 16 (some [])).2.map _ = _
    rw [scanLoop_none nothing]
    rfl
  refine clean.hasElement ?_
  rw [run_template (by decide)]
  exact runTemplate_empty empty rfl

end NuLab.Template
