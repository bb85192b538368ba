import NuLab.Report.Code

/-! # `main_block_builder.c`

The program builds a block with one transaction from its command line, prints it, and
writes it to the files that are asked for.  `none` stands for a failed assertion, a write
through NULL, or a loop that has been given up.
-/

namespace NuLab.Builder

open NuLab.CString NuLab.Hex NuLab.Report NuLab.Transaction

/-! ## The command line -/

/-- `options_t` -/
structure Options where
  prevBlockHash : Option (List UInt8)
  timestamp : UInt32
  bits : UInt32
  obin : Option (List UInt8)
  ohex : Option (List UInt8)
deriving DecidableEq

/-- `{0}` -/
def Options.zero : Options := ⟨none, 0, 0, none, none⟩

inductive Key where
  | pb
  | bits
  | time
  | obin
  | ohex
deriving DecidableEq

def Key.name : Key → List UInt8
  | .pb => text "-pb"
  | .bits => text "-bits"
  | .time => text "-time"
  | .obin => text "-obin"
  | .ohex => text "-ohex"

/-- The comparisons of `opt`, in their order. -/
def keyOf (opt : List UInt8) : Option Key :=
  [Key.pb, .bits, .time, .obin, .ohex].find? (·.name = opt)

/-- `strtoul` has 64 bits, and the fields 32. -/
def Key.assign (opts : Options) (val : List UInt8) : Key → Options
  | .pb => { opts with prevBlockHash := some val }
  | .bits => { opts with bits := (strtoul val 0 16).toUInt32 }
  | .time => { opts with timestamp := (strtoul val 0 10).toUInt32 }
  | .obin => { opts with obin := some val }
  | .ohex => { opts with ohex := some val }

def requiresValue (opt : List UInt8) : List UInt8 :=
  text "option '" ++ opt ++ text "' requires value.\n"

def isUnknown (opt : List UInt8) : List UInt8 := text "option '" ++ opt ++ text "' is unknown.\n"

/-- The loop over the arguments: the result, the options and what goes to `stderr`. -/
def parseArguments (opts : Options) : List (List UInt8) → Int × Options × List UInt8
  | [] => (0, opts, [])
  | opt :: rest =>
    match keyOf opt, rest with
    | none, _ => (1, opts, isUnknown opt)
    | some _, [] => (1, opts, requiresValue opt)
    | some key, val :: rest => parseArguments (key.assign opts val) rest

/-- The strings of `argv` are without their NULs. -/
def parseOpts (opts : Options) (argv : List (List UInt8)) : Int × Options × List UInt8 :=
  parseArguments opts (argv.drop 1)

/-! ## The block -/

def bcBlockVersionDefault : UInt32 := 0x20000000

def bcTxVersionBasic : UInt32 := 1

def bcTxLockTime : UInt32 := 0

def bcTxCoinbaseVOut : UInt32 := 0xFFFFFFFF

def bcTxCoinbaseInSequence : UInt32 := 0xFFFFFFFF

/-- `time` is what `time(NULL)` returns. -/
def bcBlockHeaderReset (time : Int64) : BcBlockHeader :=
  ⟨bcBlockVersionDefault, Vector.replicate 32 0, Vector.replicate 32 0,
    time.toUInt64.toUInt32, 0, 0⟩

def bcTxInfoReset : BcTxInfo := ⟨bcTxVersionBasic, 0, [], 0, [], bcTxLockTime, 0, 0, []⟩

def currentHeight : UInt32 := 913802

/-- The bit fields `op_push_3` and `height` in memory. -/
def scriptSig : List UInt8 := Bytes.toLE 4 (0x03 + currentHeight.toNat * 2 ^ 8)

def scriptPubKey : List UInt8 := [1]

def blockSubsidy : UInt64 := 312500000

def blockFees : UInt64 := 0

def txInfo : BcTxInfo :=
  { bcTxInfoReset with
    version := bcTxVersionBasic
    marker := 0
    flags := 1
    inCount := 1
    inVec :=
      [⟨Vector.replicate 32 0, bcTxCoinbaseVOut, UInt64.ofNat scriptSig.length, scriptSig,
        bcTxCoinbaseInSequence⟩]
    outCount := 1
    outVec := [⟨blockSubsidy + blockFees, UInt64.ofNat scriptPubKey.length, scriptPubKey⟩]
    lockTime := bcTxLockTime
    witnessVec := [⟨1, some [⟨32, some (List.replicate 32 0)⟩]⟩] }

/-- The field `hash_prev_block` of a header that has been reset, with the option. -/
def prevBlockOf (opts : Options) : Option BcHash32 :=
  match opts.prevBlockHash with
  | none => some (Vector.replicate 32 0)
  | some str => bcHash32FromCspan str ⟨0, str.length⟩

def headerOf (opts : Options) (time : Int64) (prevBlock txid : BcHash32) : BcBlockHeader :=
  let header := bcBlockHeaderReset time
  { header with
    hashPrevBlock := prevBlock
    hashMerkleRoot := txid
    timestamp := if opts.timestamp ≠ 0 then opts.timestamp else header.timestamp
    bits := if opts.bits ≠ 0 then opts.bits else header.bits
    nonce := 0 }

/-- Only the content of the buffer is looked at later. -/
def nuDcaReserve (num : Nat) : Encoder Bool := nuBufferExtend num

def appendBlock (header : BcBlockHeader) (tx : BcTxInfo) : Encoder Unit := do
  let _ ← nuDcaReserve (80 + 1024)
  let _ ← bcAppendBlockHeader header
  let _ ← bcAppendVarint 1
  let _ ← bcAppendTransaction tx

/-! ## The program -/

/-- The answers to the requests for memory: whether there is any for an input and an output, and
those for the buffers of two ids, of the block and of its digits. -/
structure Memory where
  input : Bool
  output : Bool
  txid : Allocator
  reportTxid : Allocator
  block : Allocator
  hex : Option (Nat → UInt8)

/-- What `fopen` makes of a path: NULL, or a file with room for so many bytes. -/
abbrev Disk := List UInt8 → Option Nat

/-- Path and content of a file. -/
abbrev File := List UInt8 × List UInt8

def save (disk : Disk) (path content : List UInt8) : List File :=
  match disk path with
  | none => []
  | some room => [(path, content.take room)]

/-- The content of the array `hex`: the digits of the block. -/
def hexText (fresh : Option (Nat → UInt8)) (buf : List UInt8) (fuel : Nat) : Option (List UInt8) :=
  let size := 2 * buf.length + 1
  match fresh with
  | none =>
    (bcWriteHexForward (fun _ => 0) 0 (fun k => buf.getD k 0) (UInt64.ofNat buf.length) fuel).map
      fun _ => []
  | some fresh =>
    (bcWriteHexForward fresh (UInt64.ofNat size) (fun k => buf.getD k 0)
      (UInt64.ofNat buf.length) fuel).map
      fun (_, out) => (List.range size).map out

/-- What the program does; the later one of two files with one path replaces the other. -/
structure Output where
  ec : Int
  stderr : List UInt8
  stdout : List Chunk
  files : List File

/-- `main` from where it displays the result. -/
def emit (opts : Options) (header : BcBlockHeader) (mem : Memory) (disk : Disk) (fuel : Nat) :
    Option Output := do
  let (_, stdout) ← (do bcFprintBlockHeader header; bcFprintTxInfo mem.reportTxid txInfo :
    Printer Unit) fuel []
  let (_, buf) ← appendBlock header txInfo mem.block ⟨[], 0⟩
  let binFiles := match opts.obin with
    | none => []
    | some path => save disk path buf.bytes
  let hexFiles ← match opts.ohex with
    | none => some []
    | some path => (hexText mem.hex buf.bytes fuel).map (save disk path)
  some ⟨0, [], stdout, binFiles ++ hexFiles⟩

def main (argv : List (List UInt8)) (time : Int64) (mem : Memory) (disk : Disk) (fuel : Nat) :
    Option Output :=
  let (ec, opts, stderr) := parseOpts Options.zero argv
  if ec ≠ 0 then some ⟨ec, stderr, [], []⟩
  else do
    let prevBlock ← prevBlockOf opts
    -- both arrays are written through the pointer that is returned
    if mem.input = false ∨ mem.output = false then none
    else
      let (_, txid) ← bcTxTxid mem.txid txInfo (Vector.replicate 32 0)
      emit opts (headerOf opts time prevBlock txid) mem disk fuel

end NuLab.Builder
