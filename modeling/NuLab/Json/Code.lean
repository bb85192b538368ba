import NuLab.Lib.CString

/-! # The block template scanner: `bc_json.c`

`memory` is the text in front of its last NUL, and pointers are positions in it.  The
scanner looks for quoted tags and does not parse.
-/

namespace NuLab.Json

open NuLab.CString

def tagTxns : List UInt8 := text "\"transactions\""
def tagData : List UInt8 := text "\"data\""
def tagTxid : List UInt8 := text "\"txid\""
def tagHash : List UInt8 := text "\"hash\""
def tagTarget : List UInt8 := text "\"target\""
def tagPreviousblockhash : List UInt8 := text "\"previousblockhash\""
def tagBits : List UInt8 := text "\"bits\""
def tagMintime : List UInt8 := text "\"mintime\""
def tagHeight : List UInt8 := text "\"height\""

/-- `nu_cspan_t`, where `fin` is its `end`; the one with two NULL pointers is `none`. -/
structure NuCspan where
  beg : Nat
  fin : Nat
deriving DecidableEq

/-- `bc_tx_view_t` -/
structure BcTxView where
  txid : NuCspan
  hash : NuCspan
  data : NuCspan
deriving DecidableEq

def jsonFindTagValue (memory : List UInt8) (json : NuCspan) (tag : List UInt8) : Option NuCspan :=
  match strstr memory json.beg tag with
  | none => none
  | some tmp =>
    let tmp := tmp + tag.length
    let valBeg := tmp + strspn memory tmp (text "\": \n\t")
    let valEnd := valBeg + strcspn memory valBeg (text "\",")
    if json.fin < valEnd then none else some ⟨valBeg, valEnd⟩

def jsonFindTarget (memory : List UInt8) (json : NuCspan) : Option NuCspan :=
  jsonFindTagValue memory json tagTarget

def jsonFindPrevblock (memory : List UInt8) (json : NuCspan) : Option NuCspan :=
  jsonFindTagValue memory json tagPreviousblockhash

def jsonFindBits (memory : List UInt8) (json : NuCspan) : Option NuCspan :=
  jsonFindTagValue memory json tagBits

def jsonFindMintime (memory : List UInt8) (json : NuCspan) : Option NuCspan :=
  jsonFindTagValue memory json tagMintime

def jsonFindHeight (memory : List UInt8) (json : NuCspan) : Option NuCspan :=
  jsonFindTagValue memory json tagHeight

theorem jsonFindTagValue_ge {memory : List UInt8} {json span : NuCspan} {tag : List UInt8}
    (found : jsonFindTagValue memory json tag = some span) :
    json.beg + tag.length ≤ span.beg ∧ span.beg ≤ span.fin := by
  unfold jsonFindTagValue at found
  cases occurs : strstr memory json.beg tag with
  | none => simp [occurs] at found
  | some tmp =>
    have behind := strstr_ge occurs
    simp only [occurs] at found
    split_ifs at found
    simp only [Option.some.injEq] at found
    subst found
    dsimp only
    omega

/-! ## Transactions -/

/-- The spans of one round of the loop and where `tmp` is after it; `none` if a tag is missing. -/
def scanRound (memory : List UInt8) (tmp fin : Nat) : Option (BcTxView × Nat) := do
  let span := ⟨tmp, fin⟩
  let data ← jsonFindTagValue memory span tagData
  let tmp := if tmp < data.fin then data.fin else tmp
  let txid ← jsonFindTagValue memory span tagTxid
  let tmp := if tmp < txid.fin then txid.fin else tmp
  let hash ← jsonFindTagValue memory span tagHash
  let tmp := if tmp < hash.fin then hash.fin else tmp
  some (⟨txid, hash, data⟩, tmp)

theorem scanRound_progress {memory : List UInt8} {tmp fin next : Nat} {tx : BcTxView}
    (round : scanRound memory tmp fin = some (tx, next)) : tmp < next := by
  obtain ⟨data, found, round⟩ := Option.bind_eq_some_iff.mp round
  obtain ⟨txid, -, round⟩ := Option.bind_eq_some_iff.mp round
  obtain ⟨hash, -, round⟩ := Option.bind_eq_some_iff.mp round
  have behind : tmp + tagData.length ≤ data.beg ∧ data.beg ≤ data.fin := jsonFindTagValue_ge found
  have length : tagData.length = 6 := by decide
  simp only [Option.some.injEq, Prod.mk.injEq] at round
  obtain ⟨-, rfl⟩ := round
  split_ifs <;> omega

variable {σ : Type}

/-- The calls of the callback, in order, and what its context holds after them. -/
def scanLoop (memory : List UInt8) (fin : Nat) (cb : σ → BcTxView → Int × σ) (tmp : Nat)
    (userPtr : σ) : List BcTxView × σ :=
  if tmp < fin then
    match round : scanRound memory tmp fin with
    | none => ([], userPtr)
    | some (tx, next) =>
      have := scanRound_progress round
      let (ec, userPtr) := cb userPtr tx
      if ec ≠ 0 then ([tx], userPtr)
      else
        let (calls, userPtr) := scanLoop memory fin cb next userPtr
        (tx :: calls, userPtr)
  else ([], userPtr)
termination_by fin - tmp

def jsonBlocktemplateTxScan (memory : List UInt8) (json : NuCspan) (cb : σ → BcTxView → Int × σ)
    (userPtr : σ) : Int × List BcTxView × σ :=
  match strstr memory json.beg tagTxns with
  | none => (-1, [], userPtr)
  -- `sizeof` counts the NUL of the tag
  | some tmp => (0, scanLoop memory json.fin cb (tmp + (tagTxns.length + 1)) userPtr)

end NuLab.Json
