import NuLab.Lib.Keystream
import NuLab.Transaction.Code

/-! # Reading block files: `main_block_dexor.c`

A file is what it contains and the position of its stream.  Reads at the end come
back short and seeks may go behind it; nothing else fails on a file that could be
opened.  A `read` gets the old content of the buffer it fills.
-/

namespace NuLab.BlockFile

open NuLab.Bytes NuLab.Keystream NuLab.Transaction

def EINVAL : Int := 22

def ENOTSUP : Int := 95

/-! ## Files -/

/-- `FILE`, opened for reading -/
structure File where
  content : List UInt8
  position : Nat
deriving DecidableEq

def fread (fd : File) (num : Nat) : List UInt8 × File :=
  let bytes := (fd.content.drop fd.position).take num
  (bytes, { fd with position := fd.position + bytes.length })

/-- `btc_file_t` -/
structure BtcFile where
  fd : File
  xorKey : Vector UInt8 8
  xorEnable : UInt8
deriving DecidableEq

/-- `fseek(f->fd, position, SEEK_SET)` -/
def BtcFile.seek (f : BtcFile) (position : Nat) : BtcFile := { f with fd.position := position }

/-- `xor_key[k % XorKeySize]` -/
def keyByte (key : Vector UInt8 8) (k : Nat) : UInt8 :=
  key.get ⟨k % 8, Nat.mod_lt k (Nat.succ_pos 7)⟩

/-- The result, the content of `buf` and the file after the call; `buf` has `nb` bytes. -/
def btcFileRead (f : BtcFile) (buf : List UInt8) : Int × List UInt8 × BtcFile :=
  let n := f.fd.position % 8
  let (bytes, fd) := fread f.fd buf.length
  -- a short read leaves what it found in the buffer as it is in the file
  if bytes.length ≠ buf.length then (-1, bytes ++ buf.drop bytes.length, { f with fd := fd })
  else (0, if f.xorEnable ≠ 0 then xorFrom (keyByte f.xorKey) n bytes else bytes,
    { f with fd := fd })

/-- Appends the whole file to `buf`; `none` is a read into NULL. -/
def btcFileReadAll (mem : Allocator) (file : BtcFile) (buf : Buffer) :
    Option (Int × Buffer × BtcFile) := do
  let pos := file.fd.position
  let size := file.fd.content.length
  let file := file.seek 0
  let (data, buf) ← nuBufferConsume size mem buf
  let position ← data
  let (_, bytes, file) := btcFileRead file (buf.bytes.drop position)
  some (0, { buf with bytes := buf.bytes.take position ++ bytes }, file.seek pos)

/-! ## Headers -/

/-- The value of a `short` with these two bytes. -/
def shortValue (bytes : List UInt8) : Int := (BitVec.ofNat 16 (ofLE bytes)).toInt

/-- The result, `*val` and the file. -/
def btcReadVarInt (file : BtcFile) (val : Int) : Int × Int × BtcFile :=
  match btcFileRead file [0] with
  | (0, b, file) =>
    let b := b.headD 0
    if b = 0xFF then (ENOTSUP, val, file)
    else if b = 0xFE then (ENOTSUP, val, file)
    else if b = 0xFD then
      match btcFileRead file [0, 0] with
      -- the number is read as a signed one
      | (0, x, file) => (0, shortValue x, file)
      | (ec, _, file) => (ec, val, file)
    else (0, b.toNat, file)
  | (ec, _, file) => (ec, val, file)

/-- `btc_magic_header_t` -/
structure BtcMagicHeader where
  magic : UInt32
  blockSize : UInt32
deriving DecidableEq

def BtcMagicHeader.bytes (m : BtcMagicHeader) : List UInt8 :=
  toLE 4 m.magic.toNat ++ toLE 4 m.blockSize.toNat

/-- The header whose 8 bytes in memory are `image`. -/
def BtcMagicHeader.ofImage (image : List UInt8) : BtcMagicHeader :=
  ⟨UInt32.ofNat (ofLE (image.take 4)), UInt32.ofNat (ofLE (image.drop 4))⟩

def btcReadMagicHeader (file : BtcFile) (m : BtcMagicHeader) : Int × BtcMagicHeader × BtcFile :=
  let (ec, image, file) := btcFileRead file m.bytes
  (ec, .ofImage image, file)

def btcReadBlockHeader (file : BtcFile) (h : BcBlockHeader) : Int × BcBlockHeader × BtcFile :=
  let (ec, image, file) := btcFileRead file h.bytes
  (ec, .ofImage image, file)

/-- `btc_tx_header_t` -/
structure BtcTxHeader where
  version : UInt32
  inCount : UInt32
  outCount : UInt32
deriving DecidableEq

/-- What `btc_read_tx_header` reads behind a count of 0: the flag and a second count. -/
def readFlagAndCount (file : BtcFile) (txInputCountOrFlagByte0 : Int) : Int × Int × BtcFile :=
  match btcFileRead file [0] with
  | (0, flagByte1, file) =>
    if flagByte1 ≠ [0x01] then (EINVAL, txInputCountOrFlagByte0, file)
    else btcReadVarInt file txInputCountOrFlagByte0
  | (ec, _, file) => (ec, txInputCountOrFlagByte0, file)

def btcReadTxHeader (file : BtcFile) (h : BtcTxHeader) : Int × BtcTxHeader × BtcFile :=
  match btcFileRead file (toLE 4 h.version.toNat) with
  | (0, version, file) =>
    let h := { h with version := UInt32.ofNat (ofLE version) }
    match btcReadVarInt file 0 with
    | (0, txInputCountOrFlagByte0, file) =>
      let txInCount := txInputCountOrFlagByte0
      let (ec, _, file) :=
        if txInCount = 0 then readFlagAndCount file txInputCountOrFlagByte0
        else (0, txInputCountOrFlagByte0, file)
      if ec ≠ 0 then (ec, h, file)
      -- the second count is in `tx_input_count_or_flag_byte0`, and `tx_in_count` is what it was
      else (ec, { h with inCount := UInt32.ofNat (txInCount % 2 ^ 32).toNat }, file)
    | (ec, _, file) => (ec, h, file)
  | (ec, version, file) => (ec, { h with version := UInt32.ofNat (ofLE version) }, file)

/-! ## The blocks of a file -/

/-- What `btc_file_print_info` prints about a block. -/
structure BlockInfo where
  blockHeaderBegin : Nat
  magic : BtcMagicHeader
  block : BcBlockHeader
  txnCount : Int
  coinbase : Option BtcTxHeader
deriving DecidableEq

/-- One round of the loop leaves it with a result, or goes on with the next block. -/
inductive Round where
  | left (ec : Int) (info : Option BlockInfo) (f : BtcFile)
  | next (info : BlockInfo) (f : BtcFile)

/-- The first transaction, up to the label `skip_tx_data`. -/
def readCoinbase (f : BtcFile) : Int × Int × Option BtcTxHeader × BtcFile :=
  let (ec, txnCount, f) := btcReadVarInt f 0
  if txnCount = 0 then (ec, txnCount, none, f)
  else
    let (ec, tx, f) := btcReadTxHeader f ⟨0, 0, 0⟩
    (ec, txnCount, if ec ≠ 0 then none else some tx, f)

def printBlock (f : BtcFile) : Round :=
  let blockHeaderBegin := f.fd.position
  match btcReadMagicHeader f ⟨0, 0⟩ with
  | (0, magic, f) =>
    match btcReadBlockHeader f ⟨0, Vector.replicate 32 0, Vector.replicate 32 0, 0, 0, 0⟩ with
    | (0, block, f) =>
      let blockHeaderEnd := f.fd.position
      let (ec, txnCount, coinbase, f) := readCoinbase f
      let info := ⟨blockHeaderBegin, magic, block, txnCount, coinbase⟩
      if magic.blockSize.toNat < 80 then .left ec (some info) f
      -- whatever the transaction was, the next block is where this one ends
      else .next info (f.seek (blockHeaderEnd + magic.blockSize.toNat - 80))
    | (ec, _, f) => .left ec none f
  | (ec, _, f) => .left ec none f

/-! ## What a read leaves of the file -/

/-- Only the position has changed. -/
def Moved (f f' : BtcFile) : Prop := ∃ position, f' = f.seek position

theorem Moved.refl (f : BtcFile) : Moved f f := ⟨f.fd.position, rfl⟩

theorem Moved.trans {f f' f'' : BtcFile} (first : Moved f f') (second : Moved f' f'') :
    Moved f f'' := by
  obtain ⟨position, rfl⟩ := first
  obtain ⟨position', rfl⟩ := second
  exact ⟨position', rfl⟩

theorem seek_moved (f : BtcFile) (position : Nat) : Moved f (f.seek position) := ⟨position, rfl⟩

/-- A read succeeds exactly when the file has the bytes. -/
theorem btcFileRead_ret (f : BtcFile) (buf : List UInt8) :
    (btcFileRead f buf).1 = 0 ↔ buf.length ≤ f.fd.content.length - f.fd.position := by
  have length : (fread f.fd buf.length).1.length =
      min buf.length (f.fd.content.length - f.fd.position) := by
    simp [fread]
  by_cases short : (fread f.fd buf.length).1.length ≠ buf.length
  · simp only [btcFileRead, if_pos short]
    omega
  · simp only [btcFileRead, if_neg short, true_iff]
    omega

theorem btcFileRead_file (f : BtcFile) (buf : List UInt8) :
    (btcFileRead f buf).2.2 =
      f.seek (f.fd.position + min buf.length (f.fd.content.length - f.fd.position)) := by
  have length : (fread f.fd buf.length).2 =
      { f.fd with
        position := f.fd.position + min buf.length (f.fd.content.length - f.fd.position) } := by
    simp [fread]
  by_cases short : (fread f.fd buf.length).1.length ≠ buf.length
  · simp only [btcFileRead, if_pos short, length, BtcFile.seek]
  · simp only [btcFileRead, if_neg short, length, BtcFile.seek]

theorem btcFileRead_moved {f f' : BtcFile} {buf bytes : List UInt8} {ec : Int}
    (run : btcFileRead f buf = (ec, bytes, f')) : Moved f f' := by
  have file := btcFileRead_file f buf
  rw [run] at file
  exact ⟨_, file⟩

theorem btcReadVarInt_moved (f : BtcFile) (val : Int) : Moved f (btcReadVarInt f val).2.2 := by
  unfold btcReadVarInt
  split
  next b f' run =>
    have first := btcFileRead_moved run
    dsimp only
    split_ifs
    · exact first
    · exact first
    · split
      next run' => exact first.trans (btcFileRead_moved run')
      next run' => exact first.trans (btcFileRead_moved run')
    · exact first
  next run => exact btcFileRead_moved run

theorem readFlagAndCount_moved (f : BtcFile) (count : Int) :
    Moved f (readFlagAndCount f count).2.2 := by
  unfold readFlagAndCount
  split
  next run =>
    split_ifs
    · exact btcFileRead_moved run
    · exact (btcFileRead_moved run).trans (btcReadVarInt_moved _ _)
  next run => exact btcFileRead_moved run

theorem btcReadTxHeader_moved (f : BtcFile) (h : BtcTxHeader) :
    Moved f (btcReadTxHeader f h).2.2 := by
  unfold btcReadTxHeader
  split
  next version f' run =>
    have first := btcFileRead_moved run
    dsimp only
    have second := btcReadVarInt_moved f' 0
    split
    next count f'' run' =>
      rw [run'] at second
      by_cases zero : count = 0
      · have third := readFlagAndCount_moved f'' count
        simp only [if_pos zero]
        split
        · exact (first.trans second).trans third
        · exact (first.trans second).trans third
      · simp only [if_neg zero]
        exact first.trans second
    next run' =>
      rw [run'] at second
      exact first.trans second
  next run => exact btcFileRead_moved run

theorem readCoinbase_moved (f : BtcFile) : Moved f (readCoinbase f).2.2.2 := by
  have first := btcReadVarInt_moved f 0
  unfold readCoinbase
  by_cases zero : (btcReadVarInt f 0).2.1 = 0
  · simp only [if_pos zero]
    exact first
  · simp only [if_neg zero]
    exact first.trans (btcReadTxHeader_moved _ _)

@[simp] theorem BtcMagicHeader.bytes_length (m : BtcMagicHeader) : m.bytes.length = 8 := by
  simp [BtcMagicHeader.bytes]

/-- A read that succeeds, with the file behind it. -/
theorem btcFileRead_succeeds {f f' : BtcFile} {buf bytes : List UInt8}
    (run : btcFileRead f buf = (0, bytes, f')) :
    buf.length ≤ f.fd.content.length - f.fd.position ∧
      f' = f.seek (f.fd.position + buf.length) := by
  have enough : buf.length ≤ f.fd.content.length - f.fd.position :=
    (btcFileRead_ret f buf).mp (by rw [run])
  have file := btcFileRead_file f buf
  rw [run, Nat.min_eq_left enough] at file
  exact ⟨enough, file⟩

theorem btcReadMagicHeader_image {f f' : BtcFile} {m m' : BtcMagicHeader} {ec : Int}
    (run : btcReadMagicHeader f m = (ec, m', f')) :
    ∃ image, btcFileRead f m.bytes = (ec, image, f') ∧ m' = .ofImage image := by
  cases found : btcFileRead f m.bytes with
  | mk ec' rest =>
    rw [btcReadMagicHeader, found] at run
    cases run
    exact ⟨rest.1, rfl, rfl⟩

theorem btcReadBlockHeader_image {f f' : BtcFile} {h h' : BcBlockHeader} {ec : Int}
    (run : btcReadBlockHeader f h = (ec, h', f')) :
    ∃ image, btcFileRead f h.bytes = (ec, image, f') ∧ h' = .ofImage image := by
  cases found : btcFileRead f h.bytes with
  | mk ec' rest =>
    rw [btcReadBlockHeader, found] at run
    cases run
    exact ⟨rest.1, rfl, rfl⟩

/-- What a round of the loop does with the stream, whatever the transaction was. -/
theorem printBlock_cases (f : BtcFile) :
    (∃ ec info f', printBlock f = .left ec info f' ∧ Moved f f') ∨
      ∃ info, printBlock f = .next info (f.seek (f.fd.position + 8 + info.magic.blockSize.toNat)) ∧
        info.blockHeaderBegin = f.fd.position ∧ f.fd.position + 88 ≤ f.fd.content.length ∧
        80 ≤ info.magic.blockSize.toNat := by
  unfold printBlock
  dsimp only
  split
  next magic f1 magicRun =>
    obtain ⟨image, magicRead, -⟩ := btcReadMagicHeader_image magicRun
    obtain ⟨magicEnough, rfl⟩ := btcFileRead_succeeds magicRead
    have first := btcFileRead_moved magicRead
    rw [BtcMagicHeader.bytes_length] at magicEnough first ⊢
    split
    next block f2 blockRun =>
      obtain ⟨image, blockRead, -⟩ := btcReadBlockHeader_image blockRun
      obtain ⟨blockEnough, rfl⟩ := btcFileRead_succeeds blockRead
      have second := first.trans (btcFileRead_moved blockRead)
      rw [BcBlockHeader.bytes_length] at blockEnough second ⊢
      have third := second.trans (readCoinbase_moved _)
      by_cases small : magic.blockSize.toNat < 80
      · rw [if_pos small]
        exact Or.inl ⟨_, _, _, rfl, third⟩
      · obtain ⟨position, moved⟩ := third
        have inside : f.fd.position + 8 + 80 ≤ f.fd.content.length := by
          simp only [BtcFile.seek] at blockEnough
          omega
        have ends : f.fd.position + 8 + 80 + magic.blockSize.toNat - 80 =
          f.fd.position + 8 + magic.blockSize.toNat := by omega
        rw [if_neg small, moved]
        exact Or.inr ⟨_, congrArg (fun target => Round.next _ (f.seek target)) ends, rfl, inside,
          Nat.le_of_not_lt small⟩
    next blockRun =>
      obtain ⟨image, blockRead, -⟩ := btcReadBlockHeader_image blockRun
      exact Or.inl ⟨_, _, _, rfl, first.trans (btcFileRead_moved blockRead)⟩
  next magicRun =>
    obtain ⟨image, magicRead, -⟩ := btcReadMagicHeader_image magicRun
    exact Or.inl ⟨_, _, _, rfl, btcFileRead_moved magicRead⟩

theorem printBlock_next {f f' : BtcFile} {info : BlockInfo} (run : printBlock f = .next info f') :
    info.blockHeaderBegin = f.fd.position ∧ f.fd.position + 88 ≤ f.fd.content.length ∧
      80 ≤ info.magic.blockSize.toNat ∧
        f' = f.seek (f.fd.position + 8 + info.magic.blockSize.toNat) := by
  cases printBlock_cases f with
  | inl left =>
    obtain ⟨ec, info', f'', left, -⟩ := left
    rw [left] at run
    cases run
  | inr next =>
    obtain ⟨info', next, began, inside, large⟩ := next
    rw [next] at run
    cases run
    exact ⟨began, inside, large, rfl⟩

theorem printBlock_left {f f' : BtcFile} {ec : Int} {info : Option BlockInfo}
    (run : printBlock f = .left ec info f') :
    Moved f f' := by
  cases printBlock_cases f with
  | inl left =>
    obtain ⟨ec', info', f'', left, moved⟩ := left
    rw [left] at run
    cases run
    exact moved
  | inr next =>
    obtain ⟨info', next, -⟩ := next
    rw [next] at run
    cases run

/-! ## The whole file -/

/-- The loop of `btc_file_print_info`. -/
def printBlocks (f : BtcFile) : Int × List BlockInfo × BtcFile :=
  match _round : printBlock f with
  | .left ec info f => (ec, info.toList, f)
  | .next info f' =>
    let (ec, infos, f'') := printBlocks f'
    (ec, info :: infos, f'')
termination_by f.fd.content.length - f.fd.position
decreasing_by
  obtain ⟨-, inside, -, rfl⟩ := printBlock_next _round
  simp only [BtcFile.seek]
  omega

/-- The file has been opened, so `f->fd` is not NULL. -/
def btcFilePrintInfo (f : BtcFile) : Int × List BlockInfo × BtcFile := printBlocks (f.seek 0)

/-- `xor_key` of `blkdat_dexor` -/
def dexorKey : Vector UInt8 8 := #v[0xac, 0x44, 0x3c, 0xcc, 0x4d, 0x07, 0x90, 0x9b]

/-- The result and what is written to the output file, if it can be opened; an input that cannot be
opened leaves `ferror` with NULL. -/
def blkdatDexor (mem : Allocator) (ifile : Option (List UInt8)) (ofileOpens : Bool) :
    Option (Int × Option (List UInt8)) := do
  let content ← ifile
  let ifile : BtcFile := ⟨⟨content, 0⟩, dexorKey, 1⟩
  let (_, _, ifile) := btcFilePrintInfo ifile
  let (_, buf, _) ← btcFileReadAll mem ifile ⟨[], 0⟩
  some (0, if ofileOpens then some buf.bytes else none)

end NuLab.BlockFile
