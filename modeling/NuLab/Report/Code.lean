import NuLab.Hex.RoundTrip
import NuLab.Lib.Numeral
import NuLab.Transaction.Code

/-! # The reports of `bc_utils.c`

A report goes to `fd`, except for single bytes of hashes and data, which go to `stdout`.
`none` is a read behind the end of an array, a failed assertion in the id of a
transaction, or a hex writer that has been given up.
-/

namespace NuLab.Report

open NuLab.CString NuLab.Hex NuLab.Numeral NuLab.Sha256 NuLab.Transaction

/-- What one call writes, and where. -/
inductive Chunk where
  | fd (str : List UInt8)
  | stdout (str : List UInt8)
deriving DecidableEq

/-- With the fuel of the loops in the hex writers, and what is written so far. -/
abbrev Printer (α : Type) := ReaderT Nat (StateT (List Chunk) Option) α

def fprintf (str : List UInt8) : Printer Unit := fun _ chunks => some ((), chunks ++ [.fd str])

def printf (str : List UInt8) : Printer Unit := fun _ chunks => some ((), chunks ++ [.stdout str])

/-- A call that writes nothing. -/
def silently {α : Type} (call : Nat → Option α) : Printer α :=
  fun fuel chunks => (call fuel).map (·, chunks)

/-- `for (size_t i = 0; i < count; ++i)` with a body that uses `vec[i]`. -/
def forEach {α : Type} (body : α → Printer Unit) : Nat → List α → Printer Unit
  | 0, _ => pure ()
  | _ + 1, [] => fun _ _ => none
  | count + 1, a :: vec => do
    body a
    forEach body count vec

/-! ## Fields -/

/-- `PrintOff` -/
def printOff : Nat := 16

/-- `%*s` with the width `PrintOff` -/
def aligned (tag : List UInt8) : List UInt8 := List.replicate (printOff - tag.length) 32 ++ tag

/-- What the formats of the numbers have in common: `"%*s : 0x%0*lx (%lu)\n"`. -/
def fprintNumber (width : Nat) (tag : List UInt8) (val : Nat) : Printer Unit :=
  fprintf (aligned tag ++ text " : 0x" ++ padded width 16 val ++ text " (" ++
    numeral 10 val ++ text ")\n")

def bcFprintFieldUint8 (tag : List UInt8) (val : UInt8) : Printer Unit :=
  fprintNumber 2 tag val.toNat

def bcFprintFieldUint32 (tag : List UInt8) (val : UInt32) : Printer Unit :=
  fprintNumber 8 tag val.toNat

def bcFprintFieldUint64 (tag : List UInt8) (val : UInt64) : Printer Unit :=
  fprintNumber 16 tag val.toNat

def bcFprintFieldVarint (tag : List UInt8) (val : UInt64) : Printer Unit :=
  fprintNumber 0 tag val.toNat

/-- `printf("%02x", data[i])` for the first `size` bytes. -/
def printBytes (size : Nat) (data : List UInt8) : Printer Unit :=
  forEach (fun byte => printf (padded 2 16 byte.toNat)) size data

def bcFprintFieldHash32 (tag : List UInt8) (val : BcHash32) : Printer Unit := do
  let hashStr ← silently (bcHash32StrMake (fun _ => 0) val)
  fprintf (aligned tag ++ text " : [" ++ cString (hash32Hex hashStr) ++ text "] (str)\n")
  fprintf (aligned [] ++ text " : [")
  printBytes 32 val.toList
  fprintf (text "] (hex)\n")

def bcFprintFieldData (tag : List UInt8) (data : List UInt8) (size : UInt64) : Printer Unit := do
  fprintf (aligned tag ++ text " : [")
  printBytes size.toNat data
  fprintf (text "]\n")

/-! ## Records -/

def bcBlockHeaderHash32 (hdr : BcBlockHeader) (hash : BcHash32) : Option (Int × BcHash32) :=
  hash256Digest hdr.bytes 80 hash

def bcFprintBlockHeader (hdr : BcBlockHeader) : Printer Unit := do
  let (_, hash) ← silently fun _ => bcBlockHeaderHash32 hdr (Vector.replicate 32 0)
  fprintf (text "- BlockHeader:\n")
  bcFprintFieldUint32 (text "version") hdr.version
  bcFprintFieldHash32 (text "prev_block") hdr.hashPrevBlock
  bcFprintFieldHash32 (text "merkle_root") hdr.hashMerkleRoot
  bcFprintFieldUint32 (text "time") hdr.timestamp
  bcFprintFieldUint32 (text "bits") hdr.bits
  bcFprintFieldUint32 (text "nonce") hdr.nonce
  bcFprintFieldHash32 (text "HASH32") hash

def bcFprintTxInput (txi : BcTxInput) : Printer Unit := do
  fprintf (text " - TxInput:\n")
  bcFprintFieldHash32 (text "txid") txi.txid
  bcFprintFieldUint32 (text "vout") txi.vout
  bcFprintFieldVarint (text "sig_size") txi.scriptSigSize
  bcFprintFieldData (text "sig") txi.scriptSig txi.scriptSigSize
  bcFprintFieldUint32 (text "sequence") txi.sequence

/-- The body of the loop of `bc_fprint_tx_witness`. -/
def fprintWitnessField (f : BcWitnessField) : Printer Unit := do
  bcFprintFieldVarint (text "size") f.size
  bcFprintFieldData (text "item") f.bytes f.size

def bcFprintTxWitness (w : BcWitness) : Printer Unit := do
  fprintf (text " - Witness:\n")
  bcFprintFieldVarint (text "stack_items") w.stackItems
  forEach fprintWitnessField w.stackItems.toNat w.entries

def bcFprintTxOutput (txo : BcTxOutput) : Printer Unit := do
  fprintf (text " - TxOutput:\n")
  bcFprintFieldUint64 (text "amount") txo.amount
  bcFprintFieldVarint (text "pub_key_size") txo.scriptPubKeySize
  bcFprintFieldData (text "pub_key") txo.scriptPubKey txo.scriptPubKeySize

/-- The first loop of `bc_fprint_tx_info`, which goes through two arrays. -/
def forInputs : Nat → List BcTxInput → List BcWitness → Printer Unit
  | 0, _, _ => pure ()
  | count + 1, txi :: inVec, w :: witnessVec => do
    bcFprintTxInput txi
    bcFprintTxWitness w
    forInputs count inVec witnessVec
  | _ + 1, _, _ => fun _ _ => none

/-- `mem` answers the buffer of `bc_tx_txid`. -/
def bcFprintTxInfo (mem : Allocator) (tx : BcTxInfo) : Printer Unit := do
  let (_, hash) ← silently fun _ => bcTxTxid mem tx (Vector.replicate 32 0)
  fprintf (text "- Transaction\n")
  bcFprintFieldHash32 (text "HASH32") hash
  bcFprintFieldUint32 (text "version") tx.version
  bcFprintFieldUint8 (text "marker") tx.marker
  bcFprintFieldUint8 (text "flags") tx.flags
  bcFprintFieldVarint (text "in_count") tx.inCount
  bcFprintFieldVarint (text "out_count") tx.outCount
  bcFprintFieldUint32 (text "lock_time") tx.lockTime
  forInputs tx.inCount.toNat tx.inVec tx.witnessVec
  forEach bcFprintTxOutput tx.outCount.toNat tx.outVec

/-! ## What appears on a stream -/

/-- What is read from `fd`, which may be `stdout` itself. -/
def onFd (isStdout : Bool) (chunks : List Chunk) : List UInt8 := chunks.flatMap fun
  | .fd str => str
  | .stdout str => if isStdout then str else []

end NuLab.Report
