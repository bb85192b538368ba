import NuLab.Lib.Run
import NuLab.BlockFile.Code
import NuLab.Transaction.Writes

/-! # The key and the position

`btc_file_read` starts the key at the position of the stream, so every read shows a
part of one and the same plain content.  It does not matter in which order the
file is read, and `blkdat_dexor` undoes itself.
-/

namespace NuLab.BlockFile

open NuLab.Keystream NuLab.Run NuLab.Transaction

/-- The content without the key. -/
def BtcFile.plain (f : BtcFile) : List UInt8 :=
  if f.xorEnable ≠ 0 then xorFrom (keyByte f.xorKey) 0 f.fd.content else f.fd.content

theorem BtcFile.plain_seek (f : BtcFile) (position : Nat) : (f.seek position).plain = f.plain := rfl

@[simp] theorem BtcFile.plain_length (f : BtcFile) : f.plain.length = f.fd.content.length := by
  unfold BtcFile.plain
  split
  · exact xorFrom_length _ _ _
  · rfl

theorem keyByte_phase (key : Vector UInt8 8) (n i : Nat) :
    keyByte key (n % 8 + i) = keyByte key (0 + n + i) := by
  simp only [keyByte, Nat.zero_add, Nat.mod_add_mod]

/-- A read shows the plain content from the position on. -/
theorem btcFileRead_plain {f : BtcFile} {buf : List UInt8}
    (enough : buf.length ≤ f.fd.content.length - f.fd.position) :
    btcFileRead f buf =
      (0, (f.plain.drop f.fd.position).take buf.length, f.seek (f.fd.position + buf.length)) := by
  have length : ((f.fd.content.drop f.fd.position).take buf.length).length = buf.length := by
    rw [List.length_take, List.length_drop, Nat.min_eq_left enough]
  have full : ¬ (fread f.fd buf.length).1.length ≠ buf.length := not_not.mpr length
  have behind : ({ f with fd := (fread f.fd buf.length).2 } : BtcFile) =
      f.seek (f.fd.position + buf.length) := by
    simp only [fread, length, BtcFile.seek]
  simp only [btcFileRead, if_neg full, behind, BtcFile.plain]
  by_cases enabled : f.xorEnable ≠ 0
  · rw [if_pos enabled, if_pos enabled, xorFrom_drop, xorFrom_take]
    simp only [fread]
    rw [xorFrom_congr _ (keyByte_phase f.xorKey f.fd.position)]
  · rw [if_neg enabled, if_neg enabled]
    rfl

/-! ## Seeks and reads in any order -/

inductive Access where
  | seek (position : Nat)
  | read (buf : List UInt8)

/-- What a call returns, what it leaves in the buffer, and the file. -/
def access (f : BtcFile) : Access → Option ((Int × List UInt8) × BtcFile)
  | .seek position => some ((0, []), f.seek position)
  | .read buf =>
    let (ec, bytes, f) := btcFileRead f buf
    some ((ec, bytes), f)

/-- A successful read delivers for each offset the byte of the file there with the key's
byte for this offset. -/
def Positional (raw : List UInt8) (key : Vector UInt8 8) (f : BtcFile) :
    Access → (Int × List UInt8) × BtcFile → Prop
  | .seek _, _ => True
  | .read buf, result => result.1.1 = 0 → result.1.2.length = buf.length ∧ ∀ i < buf.length,
      ∃ byte, raw[f.fd.position + i]? = some byte ∧
        result.1.2[i]? = some (byte ^^^ keyByte key (f.fd.position + i))

/-- An open file with this content and this key. -/
def Reading (raw : List UInt8) (key : Vector UInt8 8) (f : BtcFile) : Prop :=
  ∃ position, f = ⟨⟨raw, position⟩, key, 1⟩

theorem access_positional {raw : List UInt8} {key : Vector UInt8 8} {f : BtcFile}
    (reading : Reading raw key f) (a : Access) :
    ∃ result, access f a = some result ∧ Positional raw key f a result ∧
      Reading raw key result.2 := by
  obtain ⟨position, rfl⟩ := reading
  cases a with
  | seek target => exact ⟨_, rfl, trivial, target, rfl⟩
  | read buf =>
    have run : access ⟨⟨raw, position⟩, key, 1⟩ (.read buf) =
      some (((btcFileRead ⟨⟨raw, position⟩, key, 1⟩ buf).1,
        (btcFileRead ⟨⟨raw, position⟩, key, 1⟩ buf).2.1),
        (btcFileRead ⟨⟨raw, position⟩, key, 1⟩ buf).2.2) := rfl
    refine ⟨_, run, ?_, _, btcFileRead_file _ buf⟩
    intro success
    have enough := (btcFileRead_ret _ buf).mp success
    rw [btcFileRead_plain enough]
    constructor
    · simpa using enough
    · intro i inside
      have within : position + i < raw.length := by
        dsimp only at enough
        omega
      refine ⟨raw[position + i], List.getElem?_eq_getElem within, ?_⟩
      rw [List.getElem?_take_of_lt inside, List.getElem?_drop, BtcFile.plain,
        if_pos (show (1 : UInt8) ≠ 0 by decide), xorFrom_getElem?, List.getElem?_eq_getElem within,
        Option.map_some, Nat.zero_add]

/-! ## The whole file -/

theorem printBlocks_moved (f : BtcFile) : Moved f (printBlocks f).2.2 := by
  fun_induction printBlocks f with
  | case1 f ec info f' round => exact printBlock_left round
  | case2 f info f' round ec infos f'' rest inductionHypothesis =>
    obtain ⟨-, -, -, rfl⟩ := printBlock_next round
    rw [rest] at inductionHypothesis
    exact (seek_moved f _).trans inductionHypothesis

/-- Wherever the stream stands, the whole plain content is appended, and the
stream stands there again. -/
theorem btcFileReadAll_plain (fresh : Nat → Nat → UInt8) (f : BtcFile) (buf : Buffer) :
    btcFileReadAll (served fresh) f buf = some (0, ⟨buf.bytes ++ f.plain, buf.calls + 1⟩, f) := by
  have data :
    ((buf.bytes ++ (List.range f.fd.content.length).map (fresh buf.calls)).drop
      buf.bytes.length).length =
      (f.seek 0).fd.content.length - (f.seek 0).fd.position := by
    simp [BtcFile.seek]
  have read := btcFileRead_plain (Nat.le_of_eq data)
  have whole : ((f.seek 0).plain.drop (f.seek 0).fd.position).take ((f.seek 0).fd.content.length -
      (f.seek 0).fd.position) = f.plain := by
    rw [BtcFile.plain_seek]
    simp [BtcFile.seek]
  rw [data, whole] at read
  simp only [btcFileReadAll, consume_run, Option.bind_eq_bind, Option.bind_some,
    read, List.take_left]
  rfl

theorem blkdatDexor_plain (fresh : Nat → Nat → UInt8) (raw : List UInt8) :
    blkdatDexor (served fresh) (some raw) true =
      some (0, some (xorFrom (keyByte dexorKey) 0 raw)) := by
  obtain ⟨position, moved⟩ := printBlocks_moved (BtcFile.seek ⟨⟨raw, 0⟩, dexorKey, 1⟩ 0)
  simp only [blkdatDexor, btcFilePrintInfo, moved, Option.bind_eq_bind, Option.bind_some,
    btcFileReadAll_plain]
  rfl

/-- Any order of reading shows the same bytes, and de-XORing twice gives the file back. -/
theorem dexor_positional (raw : List UInt8) (key : Vector UInt8 8) :
    (∀ accesses, AllSteps access Prod.snd (Positional raw key) ⟨⟨raw, 0⟩, key, 1⟩ accesses) ∧
    (∀ position fresh, ∃ bytes calls,
      btcFileReadAll (served fresh) ⟨⟨raw, position⟩, key, 1⟩ ⟨[], 0⟩ =
      some (0, ⟨bytes, calls⟩, ⟨⟨raw, position⟩, key, 1⟩) ∧ bytes.length = raw.length ∧
      ∀ k, bytes[k]? = raw[k]?.map (· ^^^ keyByte key k)) ∧
    ∀ fresh, ∃ output, blkdatDexor (served fresh) (some raw) true = some (0, some output) ∧
      output.length = raw.length ∧ (∀ k, output[k]? = raw[k]?.map (· ^^^ keyByte dexorKey k)) ∧
      ∀ fresh', blkdatDexor (served fresh') (some output) true = some (0, some raw) := by
  refine ⟨?_, ?_, ?_⟩
  · intro accesses
    exact allSteps_of_invariant (Reading raw key) (fun f a reading => access_positional reading a)
      _ accesses ⟨0, rfl⟩
  · intro position fresh
    refine ⟨_, _, btcFileReadAll_plain fresh _ _, ?_, ?_⟩
    · simp
    · intro k
      rw [List.nil_append, BtcFile.plain, if_pos (show (1 : UInt8) ≠ 0 by decide),
        xorFrom_getElem?, Nat.zero_add]
  · intro fresh
    refine ⟨_, blkdatDexor_plain fresh raw, xorFrom_length _ _ _, ?_, ?_⟩
    · intro k
      rw [xorFrom_getElem?, Nat.zero_add]
    · intro fresh'
      rw [blkdatDexor_plain, xorFrom_twice]

end NuLab.BlockFile
