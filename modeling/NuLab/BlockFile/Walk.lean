import NuLab.BlockFile.Readback

/-! # The walk over a block file

Every iteration of the loop in `btc_file_print_info` seeks to the end of its block
before it asks for the next one, so what it reads of the transaction moves nothing:
the blocks are found from their sizes alone.
-/

namespace NuLab.BlockFile

open NuLab.Bytes

/-- Where the stream stands at the start, and what is printed about the block. -/
structure Iteration where
  start : Nat
  info : Option BlockInfo
deriving DecidableEq

/-- The iterations of the loop, with the one that leaves it. -/
def iterations (f : BtcFile) : List Iteration :=
  match _round : printBlock f with
  | .left _ info _ => [⟨f.fd.position, info⟩]
  | .next info f' => ⟨f.fd.position, some info⟩ :: iterations f'
termination_by f.fd.content.length - f.fd.position
decreasing_by
  obtain ⟨-, inside, -, rfl⟩ := printBlock_next _round
  simp only [BtcFile.seek]
  omega

@[simp] theorem seek_position (f : BtcFile) (position : Nat) :
    (f.seek position).fd.position = position := rfl

@[simp] theorem seek_content (f : BtcFile) (position : Nat) :
    (f.seek position).fd.content = f.fd.content := rfl

/-! ## One round -/

/-- The magic header in front of the stream decides where the next block is. -/
theorem printBlock_ahead {f : BtcFile} {image header back : List UInt8}
    (ahead : Ahead f (image ++ (header ++ back))) (imageLength : image.length = 8)
    (headerLength : header.length = 80) :
    ∃ info : BlockInfo, info.blockHeaderBegin = f.fd.position ∧ info.magic = .ofImage image ∧
      info.block = .ofImage header ∧
      ((80 ≤ info.magic.blockSize.toNat ∧
          printBlock f = .next info (f.seek (f.fd.position + 8 + info.magic.blockSize.toNat))) ∨
        ∃ ec f', info.magic.blockSize.toNat < 80 ∧ printBlock f = .left ec (some info) f') := by
  obtain ⟨run, rest⟩ := Ahead.read ahead (BtcMagicHeader.bytes ⟨0, 0⟩) imageLength
  generalize f.seek (f.fd.position + (BtcMagicHeader.bytes ⟨0, 0⟩).length) = f1 at run rest
  obtain ⟨run', -⟩ := Ahead.read rest
    (BcBlockHeader.bytes ⟨0, Vector.replicate 32 0, Vector.replicate 32 0, 0, 0, 0⟩)
    (by rw [headerLength, BcBlockHeader.bytes_length])
  generalize f1.seek _ = f2 at run'
  refine ⟨⟨f.fd.position, .ofImage image, .ofImage header, (readCoinbase f2).2.1,
    (readCoinbase f2).2.2.1⟩, rfl, rfl, rfl, ?_⟩
  by_cases small : (BtcMagicHeader.ofImage image).blockSize.toNat < 80
  · refine Or.inr ⟨(readCoinbase f2).1, (readCoinbase f2).2.2.2, small, ?_⟩
    simp only [printBlock, btcReadMagicHeader, run, btcReadBlockHeader, run', if_pos small]
  · have next : ∃ f', printBlock f = .next ⟨f.fd.position, .ofImage image, .ofImage header,
        (readCoinbase f2).2.1, (readCoinbase f2).2.2.1⟩ f' := by
      simp only [printBlock, btcReadMagicHeader, run, btcReadBlockHeader, run', if_neg small]
      exact ⟨_, rfl⟩
    obtain ⟨f', next⟩ := next
    obtain ⟨-, -, large, rfl⟩ := printBlock_next next
    exact Or.inl ⟨large, next⟩

/-- At the end of the file nothing is printed. -/
theorem printBlock_end {f : BtcFile} (atEnd : f.fd.content.length ≤ f.fd.position) :
    ∃ ec f', printBlock f = .left ec none f' := by
  cases run : btcReadMagicHeader f ⟨0, 0⟩ with
  | mk ec rest =>
    obtain ⟨image, read, -⟩ := btcReadMagicHeader_image run
    have failed : ec ≠ 0 := by
      rintro rfl
      obtain ⟨enough, -⟩ := btcFileRead_succeeds read
      rw [BtcMagicHeader.bytes_length] at enough
      omega
    refine ⟨ec, rest.2, ?_⟩
    unfold printBlock
    dsimp only
    split
    next run' =>
      rw [run] at run'
      cases run'
      exact absurd rfl failed
    next run' =>
      rw [run] at run'
      cases run'
      rfl

/-- The next block starts behind this one, as the size in the file says. -/
def Follows (content : List UInt8) (first second : Iteration) : Prop :=
  ∃ info, first.info = some info ∧ info.blockHeaderBegin = first.start ∧
    info.magic = .ofImage ((content.drop first.start).take 8) ∧
      88 ≤ 8 + info.magic.blockSize.toNat ∧
    second.start = first.start + 8 + info.magic.blockSize.toNat

theorem printBlock_follows {f f' : BtcFile} {info : BlockInfo}
    (round : printBlock f = .next info f') (info' : Option BlockInfo) :
    Follows f.plain ⟨f.fd.position, some info⟩ ⟨f'.fd.position, info'⟩ := by
  obtain ⟨began, inside, large, rfl⟩ := printBlock_next round
  have ahead : Ahead f ((f.plain.drop f.fd.position).take 8 ++
      (((f.plain.drop f.fd.position).drop 8).take 80 ++
        ((f.plain.drop f.fd.position).drop 8).drop 80)) := by
    rw [List.take_append_drop, List.take_append_drop, Ahead]
  obtain ⟨info'', -, magic, -, found⟩ := printBlock_ahead ahead
    (by rw [List.length_take, List.length_drop, BtcFile.plain_length]; omega)
    (by rw [List.length_take, List.length_drop, List.length_drop, BtcFile.plain_length]; omega)
  have same : info'' = info := by
    rcases found with ⟨-, next⟩ | ⟨ec, f', -, left⟩
    · rw [round] at next
      cases next
      rfl
    · rw [round] at left
      cases left
  subst same
  exact ⟨info'', rfl, began, magic, by omega, rfl⟩

/-! ## The whole walk -/

theorem iterations_head (f : BtcFile) :
    (iterations f).head?.map Iteration.start = some f.fd.position := by
  unfold iterations
  split <;> rfl

theorem iterations_info (f : BtcFile) :
    (iterations f).filterMap Iteration.info = (printBlocks f).2.1 := by
  fun_induction printBlocks f with
  | case1 f ec info f' round =>
    unfold iterations
    split
    next round' =>
      rw [round] at round'
      cases round'
      cases info <;> rfl
    next round' => rw [round] at round'; cases round'
  | case2 f info f' round ec infos f'' rest inductionHypothesis =>
    unfold iterations
    split
    next round' => rw [round] at round'; cases round'
    next round' =>
      rw [round] at round'
      cases round'
      simp only [List.filterMap_cons, inductionHypothesis, rest]

theorem iterations_follow (f : BtcFile) : (iterations f).IsChain (Follows f.plain) := by
  fun_induction iterations f with
  | case1 f ec info f' round => exact List.isChain_singleton _
  | case2 f info f' round inductionHypothesis =>
    have kept : f'.plain = f.plain := by
      obtain ⟨-, -, -, rfl⟩ := printBlock_next round
      exact BtcFile.plain_seek f _
    rw [kept] at inductionHypothesis
    have head := iterations_head f'
    cases later : iterations f' with
    | nil => exact List.isChain_singleton _
    | cons second rest =>
      rw [later] at head inductionHypothesis
      obtain ⟨start, info'⟩ := second
      obtain rfl : start = f'.fd.position := Option.some.inj head
      exact List.IsChain.cons_cons (printBlock_follows round info') inductionHypothesis

/-- Every iteration that is not the last one takes 88 bytes of the file at least. -/
theorem iterations_length (f : BtcFile) :
    88 * (iterations f).length ≤ 88 + (f.fd.content.length - f.fd.position) := by
  fun_induction iterations f with
  | case1 f ec info f' round => simp
  | case2 f info f' round inductionHypothesis =>
    obtain ⟨-, inside, large, rfl⟩ := printBlock_next round
    rw [seek_content, seek_position] at inductionHypothesis
    rw [List.length_cons]
    omega

/-! ## A file of records -/

/-- A magic header and a block of the size it gives. -/
structure Record where
  magic : BtcMagicHeader
  body : List UInt8
  size : body.length = magic.blockSize.toNat
  large : 80 ≤ magic.blockSize.toNat

def Record.bytes (record : Record) : List UInt8 := record.magic.bytes ++ record.body

theorem Record.bytes_length (record : Record) :
    record.bytes.length = 8 + record.magic.blockSize.toNat := by
  rw [Record.bytes, List.length_append, BtcMagicHeader.bytes_length, record.size]

/-- One visit of each record where it starts, and one of the end of the file. -/
def visits (start : Nat) : List Record → List (Nat × Option (BtcMagicHeader × BcBlockHeader))
  | [] => [(start, none)]
  | record :: records =>
    (start, some (record.magic, .ofImage (record.body.take 80))) ::
      visits (start + record.bytes.length) records

/-- What an iteration visits. -/
def Iteration.visit (iteration : Iteration) : Nat × Option (BtcMagicHeader × BcBlockHeader) :=
  (iteration.start, iteration.info.map fun info => (info.magic, info.block))

theorem BtcMagicHeader.ofImage_bytes (m : BtcMagicHeader) : BtcMagicHeader.ofImage m.bytes = m := by
  have back (value : UInt32) : UInt32.ofNat (ofLE (toLE 4 value.toNat)) = value :=
    version_read value
  simp only [BtcMagicHeader.ofImage, BtcMagicHeader.bytes, List.take_left' (toLE_length 4 _),
    List.drop_left' (toLE_length 4 _), back]

theorem iterations_visits (records : List Record) {f : BtcFile}
    (ahead : Ahead f (records.map Record.bytes).flatten)
    (inside : f.fd.position ≤ f.fd.content.length) :
    (iterations f).map Iteration.visit = visits f.fd.position records := by
  induction records generalizing f with
  | nil =>
    have rest := congrArg List.length ahead
    rw [List.length_drop, BtcFile.plain_length] at rest
    obtain ⟨ec, f', left⟩ := printBlock_end (f := f) (Nat.le_of_sub_eq_zero rest)
    unfold iterations
    split
    next round =>
      rw [left] at round
      cases round
      rfl
    next round => rw [left] at round; cases round
  | cons record records inductionHypothesis =>
    have parts : Ahead f (record.magic.bytes ++ (record.body.take 80 ++
        (record.body.drop 80 ++ (records.map Record.bytes).flatten))) := by
      rw [← List.append_assoc (record.body.take 80), List.take_append_drop]
      rw [List.map_cons, List.flatten_cons, Record.bytes, List.append_assoc] at ahead
      exact ahead
    obtain ⟨info, -, magic, block, found⟩ := printBlock_ahead parts (BtcMagicHeader.bytes_length _)
      (by rw [List.length_take, record.size, Nat.min_eq_left record.large])
    rw [BtcMagicHeader.ofImage_bytes] at magic
    have next := (found.resolve_right fun ⟨_, _, small, _⟩ => by
      rw [magic] at small
      exact absurd record.large (Nat.not_le_of_lt small)).2
    have position : f.fd.position + 8 + info.magic.blockSize.toNat =
        f.fd.position + record.bytes.length := by
      rw [magic, Record.bytes_length, Nat.add_assoc]
    rw [position] at next
    have rest := congrArg List.length ahead
    rw [List.length_drop, BtcFile.plain_length, List.map_cons, List.flatten_cons,
      List.length_append] at rest
    have behind : Ahead (f.seek (f.fd.position + record.bytes.length))
        (records.map Record.bytes).flatten := by
      rw [Ahead, BtcFile.plain_seek, seek_position, ← List.drop_drop, ahead, List.map_cons,
        List.flatten_cons, List.drop_left]
    have later := inductionHypothesis behind (by rw [seek_position, seek_content]; omega)
    unfold iterations
    split
    next round => rw [next] at round; cases round
    next round =>
      rw [next] at round
      cases round
      rw [List.map_cons, later, visits, Iteration.visit, Option.map_some, magic,
        block, seek_position]

/-- The loop goes from block to block by the sizes in the file and ends, and in a file of
records it finds them all. -/
theorem blockWalk (f : BtcFile) :
    (iterations (f.seek 0)).filterMap Iteration.info = (btcFilePrintInfo f).2.1 ∧
    (iterations (f.seek 0)).head?.map Iteration.start = some 0 ∧
    (iterations (f.seek 0)).IsChain (Follows f.plain) ∧
    88 * (iterations (f.seek 0)).length ≤ 88 + f.fd.content.length ∧
    ∀ records : List Record, f.plain = (records.map Record.bytes).flatten →
      (iterations (f.seek 0)).map Iteration.visit = visits 0 records := by
  refine ⟨iterations_info _, iterations_head _, ?_, ?_, ?_⟩
  · exact iterations_follow (f.seek 0)
  · exact iterations_length (f.seek 0)
  · intro records whole
    exact iterations_visits records whole (Nat.zero_le _)

/-- A block that is a header of zeros and nothing else. -/
def emptyBlock : Record :=
  ⟨⟨0xD9B4BEF9, 80⟩, List.replicate 80 0, List.length_replicate, Nat.le_refl 80⟩

theorem blockWalk_emptyBlocks :
    (iterations ((plainFile emptyBlock.bytes emptyBlock.bytes dexorKey).seek 0)).map
      Iteration.visit =
      visits 0 [emptyBlock, emptyBlock] :=
  (blockWalk _).2.2.2.2 [emptyBlock, emptyBlock] (by simp [plainFile, BtcFile.plain])

end NuLab.BlockFile
