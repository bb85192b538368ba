import NuLab.Builder.Arguments
import NuLab.Report.Readback
import NuLab.Transaction.Status

/-! # The block that `main_block_builder.c` builds

On an accepted command line, and with memory, the program prints a report from which the
header and the transaction can be read back, and writes the block to the files that are
asked for.
-/

namespace NuLab.Builder

open NuLab.Bytes NuLab.CString NuLab.Hex NuLab.Numeral NuLab.Parse NuLab.Report NuLab.Sha256
  NuLab.Transaction NuLab.While

/-! ## The transaction -/

theorem txInfo_counted : SegwitCounted txInfo where
  inputs := rfl
  outputs := rfl
  scriptSigs txi member := by
    rw [List.mem_singleton.mp member]
    rfl
  scriptPubKeys txo member := by
    rw [List.mem_singleton.mp member]
    rfl
  witnesses := rfl
  stackSizes w member := by
    rw [List.mem_singleton.mp member]
    rfl
  itemSizes w member f item := by
    rw [List.mem_singleton.mp member] at item
    rw [List.mem_singleton.mp item]
    rfl

theorem legacyCode_short : (legacyCode txInfo).length < 2 ^ 32 := by decide

theorem txInfo_readable : TransactionReadable txInfo where
  toLegacyReadable := legacyReadable_of_short txInfo_counted.toCounted (by decide)
  witnesses _ := by decide

/-- The bytes of the only transaction, with a count in front of its witness. -/
def transactionCode : List UInt8 :=
  toLE 4 bcTxVersionBasic.toNat ++
    ([0] ++ ([1] ++ (inputsWith varint txInfo ++ (outputsWith varint txInfo ++
    (([1] ++ ([1] ++ ([32] ++ List.replicate 32 0))) ++ toLE 4 bcTxLockTime.toNat)))))

theorem segwitCode_txInfo : segwitCode txInfo = some transactionCode := by decide

/-! ## What is written -/

/-- The header, the number of transactions, and the transaction. -/
def blockBytes (header : BcBlockHeader) : List UInt8 := header.bytes ++ ([1] ++ transactionCode)

theorem blockBytes_length (header : BcBlockHeader) : (blockBytes header).length = 183 := by
  have rest : ([1] ++ transactionCode).length = 103 := by decide
  rw [blockBytes, List.length_append, header.bytes_length, rest]

theorem writes_appendBlock (header : BcBlockHeader) :
    Writes (appendBlock header txInfo) (some (blockBytes header)) () := by
  have transaction := writes_bcAppendTransaction (show txInfo.flags ≠ 0 by decide)
    txInfo_counted txInfo_readable
  rw [segwitCode_txInfo] at transaction
  have one : varint 1 = [1] := by decide
  have count := writes_bcAppendVarint 1
  rw [one] at count
  exact (writes_nuBufferExtend (80 + 1024)).append
    ((answers_bcAppendBlockHeader header).writes.append
    (count.append (transaction.last ())))

theorem hexText_ends (fresh : Nat → UInt8) {buf : List UInt8} (short : buf.length < 2 ^ 31) :
    Ends (hexText (some fresh) buf) (lowerHex buf ++ [0]) := by
  have fits : 2 * buf.length + 1 < UInt64.size := by
    rw [UInt64.size]
    omega
  have size : (UInt64.ofNat buf.length).toNat = buf.length := UInt64.toNat_ofNat_of_lt' (by omega)
  have room : (UInt64.ofNat (2 * buf.length + 1)).toNat = 2 * buf.length + 1 :=
    UInt64.toNat_ofNat_of_lt' fits
  -- the array has exactly the size that the writer asks for
  have accepted : ¬ UInt64.ofNat (2 * buf.length + 1) < UInt64.ofNat buf.length * 2 + 1 := by
    rw [UInt64.not_lt, UInt64.le_iff_toNat_le, room, UInt64.toNat_add, UInt64.toNat_mul, size]
    simp only [UInt64.reduceToNat]
    omega
  have string : bytesAt (fun k => buf.getD k 0) (UInt64.ofNat buf.length) = buf := by
    apply List.ext_getElem
    · rw [bytesAt_length, size]
    · intro k inside inBuf
      simp only [bytesAt, List.getElem_map, List.getElem_range, List.getD_eq_getElem _ _ inBuf]
  obtain ⟨ret, out, ends, -, enough⟩ := (bcWriteHex_digits fresh (UInt64.ofNat (2 * buf.length + 1))
    (fun k => buf.getD k 0) (UInt64.ofNat buf.length) accepted (by rw [size]; exact short)).1
  rw [string, room] at enough
  have text := (enough (Nat.le_refl _)).2.1
  have result := ends.map fun written : UInt64 × (Nat → UInt8) =>
    (List.range (2 * buf.length + 1)).map written.2
  rw [text] at result
  exact result

/-! ## The program -/

/-- Memory that is granted, with unknown content. -/
def granted (txid reportTxid block : Nat → Nat → UInt8) (hex : Nat → UInt8) : Memory :=
  ⟨true, true, served txid, served reportTxid, served block, some hex⟩

def headerFor (opts : Options) (time : Int64) (prevBlock : BcHash32) : BcBlockHeader :=
  headerOf opts time prevBlock (hash256 (legacyCode txInfo))

def binFiles (disk : Disk) (opts : Options) (header : BcBlockHeader) : List File :=
  match opts.obin with
  | none => []
  | some path => save disk path (blockBytes header)

def hexFiles (disk : Disk) (opts : Options) (header : BcBlockHeader) : List File :=
  match opts.ohex with
  | none => []
  | some path => save disk path (lowerHex (blockBytes header) ++ [0])

def filesFor (disk : Disk) (opts : Options) (header : BcBlockHeader) : List File :=
  binFiles disk opts header ++ hexFiles disk opts header

/-- The header and the transaction, each with its hash. -/
def readReport : Parser UInt8 ((BcBlockHeader × BcHash32) × (BcTxInfo × BcHash32)) :=
  andThen (readBlockHeader true) fun header => andThen readTxInfo fun tx => done (header, tx)

theorem emit_ends (opts : Options) (header : BcBlockHeader)
    (txid reportTxid block : Nat → Nat → UInt8) (hex : Nat → UInt8) (disk : Disk) :
    ∃ chunks, Ends (emit opts header (granted txid reportTxid block hex) disk)
        ⟨0, [], chunks, filesFor disk opts header⟩ ∧
      Reads readReport (onFd true chunks)
        ((header, hash256 header.bytes), (txInfo, hash256 (legacyCode txInfo))) := by
  have shows : Shows true (do bcFprintBlockHeader header; bcFprintTxInfo (served reportTxid) txInfo)
    readReport
      ((header, hash256 header.bytes), (txInfo, hash256 (legacyCode txInfo))) :=
    (shows_blockHeader true header).andThen
      ((shows_txInfo reportTxid txInfo_counted legacyCode_short).last fun tx => (_, tx))
  obtain ⟨chunks, ⟨rounds, prints⟩, reads⟩ := shows
  obtain ⟨calls, appended⟩ := writes_appendBlock header block ⟨[], 0⟩
  have short : (blockBytes header).length < 2 ^ 31 := by rw [blockBytes_length]; decide
  obtain ⟨rounds', digits⟩ := hexText_ends hex short
  refine ⟨chunks, ⟨max rounds rounds', fun fuel enough => ?_⟩, reads⟩
  have printed := prints fuel [] (by omega)
  rw [List.nil_append] at printed
  simp only [emit, granted, Option.bind_eq_bind, printed, appended, Option.map_some,
    Option.bind_some, List.nil_append, filesFor, binFiles, hexFiles]
  cases opts.ohex with
  | none => rfl
  | some path =>
    simp only [digits fuel (by omega)]
    cases opts.obin with
    | none => rfl
    | some path => rfl

variable (prog : List UInt8) (time : Int64) (txid reportTxid block : Nat → Nat → UInt8)
  (hex : Nat → UInt8) (disk : Disk)

/-- On an accepted command line the block is made, with the id of its only
transaction as Merkle root. -/
theorem main_emit (pairs : List (Key × List UInt8)) {prevBlock : BcHash32}
    (prev : prevBlockOf (chosen pairs) = some prevBlock) :
    main (prog :: written pairs) time (granted txid reportTxid block hex) disk =
      emit (chosen pairs) (headerFor (chosen pairs) time prevBlock)
        (granted txid reportTxid block hex) disk := by
  have id := bcTxTxid_eq txInfo_counted.toCounted txid (Vector.replicate 32 0) legacyCode_short
  funext fuel
  simp only [main, parseOpts_written, prev, granted, id, Option.bind_eq_bind,
    Option.bind_some, headerFor]
  rw [if_neg (by decide), if_neg (by decide)]

/-- What the program prints and writes on a command line that it accepts. -/
theorem main_ends (pairs : List (Key × List UInt8)) {prevBlock : BcHash32}
    (prev : prevBlockOf (chosen pairs) = some prevBlock) :
    ∃ chunks, Ends (main (prog :: written pairs) time (granted txid reportTxid block hex) disk)
        ⟨0, [], chunks, filesFor disk (chosen pairs) (headerFor (chosen pairs) time prevBlock)⟩ ∧
      Reads readReport (onFd true chunks) ((headerFor (chosen pairs) time prevBlock,
        hash256 (headerFor (chosen pairs) time prevBlock).bytes),
          (txInfo, hash256 (legacyCode txInfo))) := by
  rw [main_emit prog time txid reportTxid block hex disk pairs prev]
  exact emit_ends (chosen pairs) _ txid reportTxid block hex disk

/-- With both files, on top of a block whose hash is all `aa`. -/
def bothFiles : List (Key × List UInt8) :=
  [(.pb, List.replicate 64 97), (.obin, text "bin"), (.ohex, text "hex")]

/-- There is no room for all digits. -/
def smallDisk : Disk := fun path => if path = text "bin" then some 1000 else some 100

theorem main_ends_bothFiles :
    let prevBlock := Vector.replicate 32 0xAA
    ∃ chunks, Ends (main (text "build" :: written bothFiles) 7
          (granted (fun _ _ => 0) (fun _ _ => 0) (fun _ _ => 0) fun _ => 0) smallDisk)
        ⟨0, [], chunks, filesFor smallDisk (chosen bothFiles)
          (headerFor (chosen bothFiles) 7 prevBlock)⟩ ∧
      Reads readReport (onFd true chunks) ((headerFor (chosen bothFiles) 7 prevBlock,
        hash256 (headerFor (chosen bothFiles) 7 prevBlock).bytes),
        (txInfo, hash256 (legacyCode txInfo))) :=
  main_ends _ 7 (fun _ _ => 0) (fun _ _ => 0) (fun _ _ => 0) (fun _ => 0) smallDisk bothFiles
    (by decide +kernel)

/-! ## Asking for a header -/

/-- The command line for these fields. -/
def request (prevBlock : BcHash32) (timestamp bits : UInt32) (path : List UInt8) :
    List (Key × List UInt8) :=
  [(.pb, lowerHex prevBlock.toList.reverse), (.time, numeral 10 timestamp.toNat),
    (.bits, numeral 16 bits.toNat), (.obin, path)]

theorem strtoul_word (base : Nat) (binary : 1 < base) (small : base ≤ 16) (word : UInt32) :
    (strtoul (numeral base word.toNat) 0 base).toUInt32 = word := by
  have wide : word.toNat < 2 ^ 64 := Nat.lt_trans word.toNat_lt (by decide)
  rw [strtoul_numeral binary small wide]
  apply UInt32.toNat_inj.mp
  rw [UInt64.toNat_toUInt32, UInt64.toNat_ofNat_of_lt' wide, Nat.mod_eq_of_lt word.toNat_lt]

/-- Every header but those with the timestamp 0 can be asked for. -/
theorem headerFor_request (prevBlock : BcHash32) (timestamp bits : UInt32) (path : List UInt8)
    (time : Int64) (set : timestamp ≠ 0) :
    prevBlockOf (chosen (request prevBlock timestamp bits path)) = some prevBlock ∧
      headerFor (chosen (request prevBlock timestamp bits path)) time prevBlock =
        ⟨bcBlockVersionDefault, prevBlock, hash256 (legacyCode txInfo), timestamp, bits, 0⟩ := by
  have hash : (chosen (request prevBlock timestamp bits path)).prevBlockHash =
      some (lowerHex prevBlock.toList.reverse) := rfl
  have chosenTime : (chosen (request prevBlock timestamp bits path)).timestamp = timestamp :=
    strtoul_word 10 (by decide) (by decide) timestamp
  have chosenBits : (chosen (request prevBlock timestamp bits path)).bits = bits :=
    strtoul_word 16 (by decide) (by decide) bits
  constructor
  · have read := bcHash32FromCspan_string [] (lowerHex prevBlock.toList.reverse) []
    rw [List.append_nil, hash32OfChars_lowerHex] at read
    rw [prevBlockOf, hash]
    simpa [lowerHex_hash_length] using read
  · rw [headerFor, headerOf, chosenTime, chosenBits, if_pos set]
    -- bits of 0 are those of a header that has been reset
    by_cases zero : bits = 0
    · rw [zero]
      rfl
    · rw [if_pos zero]
      rfl

theorem headerFor_request_one :
    prevBlockOf (chosen (request (Vector.replicate 32 0) 1 2 [])) = some (Vector.replicate 32 0) ∧
      headerFor (chosen (request (Vector.replicate 32 0) 1 2 [])) 0 (Vector.replicate 32 0) =
        ⟨bcBlockVersionDefault, Vector.replicate 32 0, hash256 (legacyCode txInfo), 1, 2, 0⟩ :=
  headerFor_request (Vector.replicate 32 0) 1 2 [] 0 (by decide)

end NuLab.Builder
