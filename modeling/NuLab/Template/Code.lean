import NuLab.Hex.Code
import NuLab.Merkle.Code

/-! # `main_block_template_parser.c`

`none`: the program ends with a failed assertion, or it reads through NULL or reads
what has never been written.  The default allocator asserts that it got memory, so a
refused request is such an end.  What is printed in the end is the assembled header.
-/

namespace NuLab.Template

open NuLab.CString NuLab.Dca NuLab.Hex NuLab.Json NuLab.Merkle

/-- The answers to the program's requests for memory. -/
structure Allocations where
  /-- There is memory for one more view when the array holds this many. -/
  views : Nat → Bool
  txids : Option (Nat → BcHash32)
  merkle : Option (Nat → BcHash32)

/-- The array is `none` once a request was refused; the program has ended, and nothing is scanned
any more. -/
def txViewDcaAppend (mem : Nat → Bool) (txs : Option (List BcTxView)) (tx : BcTxView) :
    Int × Option (List BcTxView) :=
  match txs with
  | none => (1, none)
  | some txs => if mem txs.length then (0, some (txs ++ [tx])) else (1, none)

def readTxsFromJson (mem : Nat → Bool) (memory : List UInt8) (txs : List BcTxView)
    (json : NuCspan) : Option (Int × List BcTxView) :=
  let (ec, _, txs) := jsonBlocktemplateTxScan memory json (txViewDcaAppend mem) (some txs)
  txs.map fun txs => (ec, txs)

/-- What follows a search that finds the key of the array. -/
theorem readTxsFromJson_some {mem : Nat → Bool} {memory : List UInt8} {cursor : Nat}
    (key : strstr memory 0 tagTxns = some cursor) :
    readTxsFromJson mem memory [] ⟨0, memory.length⟩ =
      (scanLoop memory memory.length (txViewDcaAppend mem) (cursor + (tagTxns.length + 1))
        (some [])).2.map fun txs => (0, txs) := by
  simp only [readTxsFromJson, jsonBlocktemplateTxScan, key]

/-- The header's fields from the text, with the given root. -/
def assemble (memory : List UInt8) (json : NuCspan) (merkleRoot : BcHash32) :
    Option BcBlockHeader := do
  let targetData := jsonFindTarget memory json
  let prevBlockData := jsonFindPrevblock memory json
  let bitsData := jsonFindBits memory json
  let mintimeData := jsonFindMintime memory json
  let heightData := jsonFindHeight memory json
  let _height ← heightData.map fun span => strtoul memory span.beg 10
  let mintime ← mintimeData.map fun span => (strtoul memory span.beg 10).toUInt32
  let bits ← bitsData.map fun span => (strtoul memory span.beg 16).toUInt32
  -- the span of two NULL pointers is shorter than a hash
  let _target ← targetData.bind (bcHash32FromCspan memory)
  let prevBlock ← prevBlockData.bind (bcHash32FromCspan memory)
  some
    { version := 0x20000000
      hashPrevBlock := prevBlock
      hashMerkleRoot := merkleRoot
      timestamp := mintime
      bits := bits
      nonce := 0 }

/-- `main` once the file has been loaded: the exit code and the header. -/
def parseTemplate (mem : Allocations) (memory : List UInt8) :
    Option (Int × Option BcBlockHeader) := do
  let json := ⟨0, memory.length⟩
  let (ec, txArr) ← readTxsFromJson mem.views memory [] json
  if ec ≠ 0 then some (-1, none)
  else do
    let _txidPtr ← consumeElems [] txArr.length mem.txids
    let txidArr ← txArr.mapM fun txPtr => bcHash32FromCspan memory txPtr.hash
    let (_, _, mrTmpArr) ← bcMerkleRoot txidArr [] mem.merkle
    let merkleRoot ← mrTmpArr[0]?
    let block ← assemble memory json merkleRoot
    some (0, some block)

/-- `file` is `none` if it cannot be loaded; of an empty file nothing, not even a NUL, is stored. -/
def main (argc : Nat) (file : Option (List UInt8)) (mem : Allocations) :
    Option (Int × Option BcBlockHeader) :=
  if argc ≠ 2 then some (-1, none)
  else
    match file with
    | none => some (-1, none)
    | some [] => none
    | some memory => parseTemplate mem memory

end NuLab.Template
