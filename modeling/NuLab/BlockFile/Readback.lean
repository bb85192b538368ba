import NuLab.BlockFile.Dexor
import NuLab.Transaction.ExtraCount

/-! # Reading back what the encoders write

`btc_read_var_int` and `btc_read_tx_header` on files without a key that hold bytes of
`bc_append_varint` and `bc_append_transaction`.  The reader has the two-byte form in
a signed `short`, and it forgets the count behind marker and flag.
-/

namespace NuLab.BlockFile

open NuLab.Bytes NuLab.Transaction

/-! ## What lies ahead of the stream -/

/-- The plain content from the position on. -/
def Ahead (f : BtcFile) (bytes : List UInt8) : Prop := f.plain.drop f.fd.position = bytes

theorem Ahead.read {f : BtcFile} {front back : List UInt8} (ahead : Ahead f (front ++ back))
    (buf : List UInt8) (length : front.length = buf.length) :
    btcFileRead f buf = (0, front, f.seek (f.fd.position + buf.length)) ∧
      Ahead (f.seek (f.fd.position + buf.length)) back := by
  have rest := congrArg List.length ahead
  rw [List.length_drop, BtcFile.plain_length, List.length_append] at rest
  constructor
  · rw [btcFileRead_plain (by omega), ahead, List.take_left' length]
  · unfold Ahead
    rw [BtcFile.plain_seek, BtcFile.seek, ← List.drop_drop, ahead, List.drop_left' length]

/-- A file without a key, in the middle of what it holds. -/
def plainFile (before rest : List UInt8) (key : Vector UInt8 8) : BtcFile :=
  ⟨⟨before ++ rest, before.length⟩, key, 0⟩

theorem plainFile_ahead (before rest : List UInt8) (key : Vector UInt8 8) :
    Ahead (plainFile before rest key) rest := by
  simp [Ahead, plainFile, BtcFile.plain]

/-! ## Variable-length integers -/

theorem btcReadVarInt_byte {f : BtcFile} {byte : UInt8} {back : List UInt8} (val : Int)
    (ahead : Ahead f ([byte] ++ back)) (small : byte < 0xFD) :
    btcReadVarInt f val = (0, (byte.toNat : Int), f.seek (f.fd.position + 1)) ∧
      Ahead (f.seek (f.fd.position + 1)) back := by
  obtain ⟨run, rest⟩ := Ahead.read ahead [0] rfl
  have noFF : byte ≠ 0xFF := by rintro rfl; contradiction
  have noFE : byte ≠ 0xFE := by rintro rfl; contradiction
  have noFD : byte ≠ 0xFD := by rintro rfl; contradiction
  refine ⟨?_, rest⟩
  simp [btcReadVarInt, run, noFF, noFE, noFD]

theorem btcReadVarInt_short {f : BtcFile} {x back : List UInt8} (val : Int)
    (ahead : Ahead f ([0xFD] ++ (x ++ back))) (length : x.length = 2) :
    btcReadVarInt f val = (0, shortValue x, f.seek (f.fd.position + 3)) ∧
      Ahead (f.seek (f.fd.position + 3)) back := by
  obtain ⟨run, rest⟩ := Ahead.read ahead [0] rfl
  obtain ⟨run', rest'⟩ := Ahead.read rest [0, 0] length
  refine ⟨?_, rest'⟩
  simp only [btcReadVarInt, run, List.headD_cons, run']
  rfl

theorem btcReadVarInt_unsupported {f : BtcFile} {byte : UInt8} {back : List UInt8} (val : Int)
    (ahead : Ahead f ([byte] ++ back)) (wide : byte = 0xFE ∨ byte = 0xFF) :
    btcReadVarInt f val = (ENOTSUP, val, f.seek (f.fd.position + 1)) := by
  obtain ⟨run, -⟩ := Ahead.read ahead [0] rfl
  simp only [btcReadVarInt, run]
  cases wide with
  | inl same => subst same; rfl
  | inr same => subst same; rfl

theorem shortValue_toLE {value : Nat} (fits : value < 65536) :
    shortValue (toLE 2 value) = if value < 0x8000 then (value : Int) else value - 65536 := by
  have bits : (BitVec.ofNat 16 value).toNat = value := by
    rw [BitVec.toNat_ofNat]
    exact Nat.mod_eq_of_lt fits
  have back : ofLE (toLE 2 value) = value := ofLE_toLE_of_lt fits
  rw [shortValue, back, BitVec.toInt_eq_toNat_cond, bits]
  split_ifs <;> omega

/-- A read answers with the number and the position behind it, or with
`ENOTSUP` and the old value. -/
def Agrees (v : UInt64) (code : List UInt8) (f : BtcFile) (val : Int) : Prop :=
  let (ec, val', f') := btcReadVarInt f val
  (ec = 0 ∧ val' = v.toNat ∧ f' = f.seek (f.fd.position + code.length)) ∨
    (ec = ENOTSUP ∧ val' = val)

instance (v : UInt64) (code : List UInt8) (f : BtcFile) (val : Int) :
    Decidable (Agrees v code f val) :=
  inferInstanceAs (Decidable (_ ∨ _))

/-- The numbers that fit into a `short`. -/
theorem btcReadVarInt_varint {f : BtcFile} {v : UInt64} {back : List UInt8} (val : Int)
    (ahead : Ahead f (varint v ++ back)) (small : v < 0x8000) :
    btcReadVarInt f val = (0, (v.toNat : Int), f.seek (f.fd.position + (varint v).length)) ∧
      Ahead (f.seek (f.fd.position + (varint v).length)) back := by
  have bound : v.toNat < 0x8000 := UInt64.lt_iff_toNat_lt.mp small
  unfold varint at ahead ⊢
  by_cases one : v < 0xFD
  · rw [if_pos one] at ahead ⊢
    have below : v.toNat < 0xFD := UInt64.lt_iff_toNat_lt.mp one
    have byte : v.toUInt8.toNat = v.toNat := by
      rw [UInt64.toNat_toUInt8]
      omega
    have run := btcReadVarInt_byte val ahead (UInt8.lt_iff_toNat_lt.mpr (by rw [byte]; exact below))
    rwa [byte] at run
  · have three : v < 0xFFFF := UInt64.lt_trans small (by decide)
    rw [if_neg one, if_pos three] at ahead ⊢
    have run := btcReadVarInt_short val ahead (toLE_length 2 v.toNat)
    rwa [shortValue_toLE (by omega), if_pos bound] at run

/-- The reader agrees with the writer except where the sign bit of the two-byte form is set. -/
theorem varInt_agrees_iff (v : UInt64) :
    Writes (bcAppendVarint v) (some (varint v)) 0 ∧ ∀ before after key val,
      Agrees v (varint v) (plainFile before (varint v ++ after) key) val ↔
        v < 0x8000 ∨ 0xFFFF ≤ v := by
  refine ⟨writes_bcAppendVarint v, ?_⟩
  intro before after key val
  have ahead := plainFile_ahead before (varint v ++ after) key
  generalize plainFile before (varint v ++ after) key = f at ahead
  by_cases small : v < 0x8000
  · obtain ⟨run, -⟩ := btcReadVarInt_varint val ahead small
    simp only [Agrees, run, small, true_or, and_self]
  · have bound : 0x8000 ≤ v.toNat := UInt64.le_iff_toNat_le.mp (UInt64.not_lt.mp small)
    have one : ¬ v < 0xFD := fun one => small (UInt64.lt_trans one (by decide))
    unfold varint at ahead
    rw [if_neg one] at ahead
    by_cases three : v < 0xFFFF
    · -- the value comes back negative
      have below : v.toNat < 0xFFFF := UInt64.lt_iff_toNat_lt.mp three
      have order : ¬ (v < 0x8000 ∨ 0xFFFF ≤ v) := by
        rintro (less | more)
        · exact small less
        · exact UInt64.not_le.mpr three more
      rw [if_pos three] at ahead
      obtain ⟨run, -⟩ := btcReadVarInt_short val ahead (toLE_length 2 v.toNat)
      rw [shortValue_toLE (by omega), if_neg (by omega)] at run
      simp only [Agrees, run, order, iff_false]
      rintro (⟨-, wrong, -⟩ | ⟨wrong, -⟩)
      · omega
      · exact absurd wrong (by decide)
    · rw [if_neg three] at ahead
      have large : 0xFFFF ≤ v := UInt64.not_lt.mp three
      have unsupported : btcReadVarInt f val = (ENOTSUP, val, f.seek (f.fd.position + 1)) := by
        by_cases five : v < 0xFFFFFFFF
        · rw [if_pos five] at ahead
          exact btcReadVarInt_unsupported val ahead (Or.inl rfl)
        · rw [if_neg five] at ahead
          exact btcReadVarInt_unsupported val ahead (Or.inr rfl)
      simp only [Agrees, unsupported, large, or_true, and_self]

/-- 0x8000 is read as -32768. -/
theorem varInt_disagrees :
    ¬ ∀ (v : UInt64) (before after : List UInt8) (key : Vector UInt8 8) (val : Int),
      Agrees v (varint v) (plainFile before (varint v ++ after) key) val := by
  intro always
  have agrees := always 0x8000 [] [] dexorKey 0
  revert agrees
  decide

/-! ## Transactions -/

/-- A read succeeds and finds the version and the number of inputs. -/
def ReadsBack (tx : BcTxInfo) (h : BtcTxHeader) (f : BtcFile) : Prop :=
  let (ec, h', _) := btcReadTxHeader f h
  ec = 0 ∧ h'.version = tx.version ∧ h'.inCount.toNat = tx.inCount.toNat

instance (tx : BcTxInfo) (h : BtcTxHeader) (f : BtcFile) : Decidable (ReadsBack tx h f) :=
  inferInstanceAs (Decidable (_ ∧ _))

theorem version_read (version : UInt32) : UInt32.ofNat (ofLE (toLE 4 version.toNat)) = version := by
  have back : ofLE (toLE 4 version.toNat) = version.toNat := ofLE_toLE_of_lt version.toNat_lt
  rw [back, UInt32.ofNat_toNat]

theorem count_stored {count : UInt64} (small : count < 0x8000) :
    (UInt32.ofNat ((count.toNat : Int) % 2 ^ 32).toNat).toNat = count.toNat := by
  have bound : count.toNat < 0x8000 := UInt64.lt_iff_toNat_lt.mp small
  rw [Int.emod_eq_of_lt (by omega) (by omega), Int.toNat_natCast,
    UInt32.toNat_ofNat_of_lt' (Nat.lt_trans bound (by decide))]

theorem btcReadTxHeader_legacy {f : BtcFile} {version : UInt32} {count : UInt64} {back : List UInt8}
    (h : BtcTxHeader) (ahead : Ahead f (toLE 4 version.toNat ++ (varint count ++ back)))
    (positive : 1 ≤ count) (small : count < 0x8000) :
    (btcReadTxHeader f h).1 = 0 ∧
      (btcReadTxHeader f h).2.1 =
        ⟨version, UInt32.ofNat ((count.toNat : Int) % 2 ^ 32).toNat, h.outCount⟩ := by
  obtain ⟨run, rest⟩ := Ahead.read ahead (toLE 4 h.version.toNat) (by simp)
  obtain ⟨run', -⟩ := btcReadVarInt_varint 0 rest small
  have nonzero : ¬ (count.toNat : Int) = 0 := by
    have several : 1 ≤ count.toNat := UInt64.le_iff_toNat_le.mp positive
    omega
  simp only [btcReadTxHeader, run, version_read, run', if_neg nonzero, ne_eq, not_true_eq_false,
    if_false, and_self]

/-- Behind the marker the count is read, and 0 is stored. -/
theorem btcReadTxHeader_segwit {f : BtcFile} {version : UInt32} {count : UInt64} {back : List UInt8}
    (h : BtcTxHeader)
    (ahead : Ahead f (toLE 4 version.toNat ++ ([0] ++ ([1] ++ (varint count ++ back)))))
    (small : count < 0x8000) :
    (btcReadTxHeader f h).1 = 0 ∧ (btcReadTxHeader f h).2.1 = ⟨version, 0, h.outCount⟩ := by
  obtain ⟨run, rest⟩ := Ahead.read ahead (toLE 4 h.version.toNat) (by simp)
  obtain ⟨marker, rest⟩ := btcReadVarInt_byte 0 rest (by decide)
  obtain ⟨flag, rest⟩ := Ahead.read rest [0] rfl
  obtain ⟨second, -⟩ := btcReadVarInt_varint 0 rest small
  simp only [btcReadTxHeader, run, version_read, marker, readFlagAndCount, UInt8.toNat_zero,
    Nat.cast_zero, if_true, flag, ne_eq, not_true_eq_false, if_false, second]
  exact ⟨trivial, rfl⟩

theorem segwit_lost {tx : BcTxInfo} (positive : 1 ≤ tx.inCount) (small : tx.inCount < 0x8000)
    (marker : tx.marker = 0) (flags : tx.flags = 1) {fresh : Nat → Nat → UInt8} {ec : Int}
    {buf : Buffer} (written : bcAppendTransaction tx (served fresh) ⟨[], 0⟩ = some (ec, buf))
    (before after : List UInt8) (key : Vector UInt8 8) (h : BtcTxHeader) :
    ¬ ReadsBack tx h (plainFile before (buf.bytes ++ after) key) := by
  obtain ⟨code, same⟩ := begins_bcAppendTransaction tx fresh ⟨[], 0⟩ ec buf written
  have ahead := plainFile_ahead before (buf.bytes ++ after) key
  generalize plainFile before (buf.bytes ++ after) key = f at ahead
  rw [List.nil_append] at same
  have segwit : tx.flags ≠ 0 := by rw [flags]; decide
  rw [same, if_pos segwit, marker, flags] at ahead
  simp only [List.append_assoc] at ahead
  obtain ⟨-, stored⟩ := btcReadTxHeader_segwit h ahead small
  have nonzero : (0 : UInt32).toNat ≠ tx.inCount.toNat := by
    have several : 1 ≤ tx.inCount.toNat := UInt64.le_iff_toNat_le.mp positive
    exact (Nat.ne_of_gt several).symm
  simp only [ReadsBack, stored, nonzero, and_false, not_false_eq_true]

/-- The reader understands the legacy form and not the other one. -/
theorem txHeader_readsBack_iff (tx : BcTxInfo) (positive : 1 ≤ tx.inCount)
    (small : tx.inCount < 0x8000) (format : tx.flags = 0 ∨ tx.marker = 0 ∧ tx.flags = 1)
    (fresh : Nat → Nat → UInt8) (ec : Int) (buf : Buffer)
    (written : bcAppendTransaction tx (served fresh) ⟨[], 0⟩ = some (ec, buf))
    (before after : List UInt8) (key : Vector UInt8 8) (h : BtcTxHeader) :
    ReadsBack tx h (plainFile before (buf.bytes ++ after) key) ↔ tx.flags = 0 := by
  by_cases legacy : tx.flags = 0
  · obtain ⟨code, same⟩ := begins_bcAppendTransaction tx fresh ⟨[], 0⟩ ec buf written
    have ahead := plainFile_ahead before (buf.bytes ++ after) key
    generalize plainFile before (buf.bytes ++ after) key = f at ahead
    rw [same, if_neg (not_not.mpr legacy)] at ahead
    simp only [List.append_assoc, List.nil_append] at ahead
    obtain ⟨success, stored⟩ := btcReadTxHeader_legacy h ahead positive small
    simp only [ReadsBack, success, stored, count_stored small, legacy, and_self]
  · obtain ⟨marker, flags⟩ := format.resolve_left legacy
    have lost := segwit_lost positive small marker flags written before after key h
    simp only [lost, legacy]

/-- One input, no flags. -/
def stripped : BcTxInfo := { coinbase with flags := 0, witnessVec := [] }

theorem stripped_written :
    ∃ buf, bcAppendTransaction stripped (served fun _ _ => 0) ⟨[], 0⟩ = some (0, buf) := by
  have counted : Counted stripped :=
    ⟨rfl, rfl, coinbase_counted.scriptSigs, coinbase_counted.scriptPubKeys⟩
  have readable := legacyReadable_of_short counted (by decide)
  obtain ⟨calls, run⟩ := writes_bcAppendTxLegacy counted readable (fun _ _ => 0) ⟨[], 0⟩
  exact ⟨_, run⟩

theorem txHeader_readsBack_stripped :
    ∃ buf, bcAppendTransaction stripped (served fun _ _ => 0) ⟨[], 0⟩ = some (0, buf) ∧
      (ReadsBack stripped ⟨0, 0, 0⟩ (plainFile [] (buf.bytes ++ []) dexorKey) ↔
        stripped.flags = 0) := by
  obtain ⟨buf, written⟩ := stripped_written
  exact ⟨buf, written, txHeader_readsBack_iff stripped (by decide) (by decide) (Or.inl rfl) _
    0 buf written [] []
    dexorKey ⟨0, 0, 0⟩⟩

/-- One input comes back as none. -/
theorem txHeader_loses_count :
    ¬ ∀ (tx : BcTxInfo) (fresh : Nat → Nat → UInt8) (ec : Int) (buf :
      Buffer) (before after : List UInt8) (key : Vector UInt8 8) (h : BtcTxHeader), 1 ≤ tx.inCount →
        tx.inCount < 0x8000 →
      tx.flags = 0 ∨ tx.marker = 0 ∧ tx.flags = 1 →
      bcAppendTransaction tx (served fresh) ⟨[], 0⟩ = some (ec, buf) →
      ReadsBack tx h (plainFile before (buf.bytes ++ after) key) := by
  intro always
  obtain ⟨calls, run⟩ := writes_bcAppendTransaction (by decide) coinbase_segwitCounted
    coinbase_readable (fun _ _ => 0) ⟨[], 0⟩
  cases found : segwitCode coinbase with
  | none => cases found
  | some code =>
    rw [found] at run
    exact segwit_lost (by decide) (by decide) rfl rfl run [] [] dexorKey ⟨0, 0, 0⟩
      (always coinbase _ _ _ [] [] dexorKey ⟨0, 0, 0⟩ (by decide) (by decide)
        (Or.inr ⟨rfl, rfl⟩) run)

end NuLab.BlockFile
