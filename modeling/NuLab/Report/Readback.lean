import NuLab.Report.Code
import NuLab.Transaction.ExtraCount

/-! # Reading reports back

The report of a header shows all of it on any stream, that of a transaction on `stdout`:
the parsers below get back every field from the text.
-/

namespace NuLab.Report

open NuLab.CString NuLab.Hex NuLab.Numeral NuLab.Parse NuLab.Sha256 NuLab.Transaction NuLab.While

variable {α β γ : Type}

/-! ## Printers -/

/-- With enough fuel these chunks are written, behind what is there. -/
def Prints (printer : Printer α) (chunks : List Chunk) (a : α) : Prop :=
  ∃ rounds, ∀ fuel before, rounds < fuel → printer fuel before = some (a, before ++ chunks)

theorem prints_pure (a : α) : Prints (pure a) [] a :=
  ⟨0, fun fuel before _ => by rw [List.append_nil]; rfl⟩

theorem Prints.bind {first : Printer α} {next : α → Printer β} {chunks chunks' : List Chunk} {a : α}
    {b : β} (prints : Prints first chunks a) (prints' : Prints (next a) chunks' b) :
    Prints (first >>= next) (chunks ++ chunks') b := by
  obtain ⟨rounds, run⟩ := prints
  obtain ⟨rounds', run'⟩ := prints'
  -- both parts run with the same fuel
  refine ⟨max rounds rounds', fun fuel before enough => ?_⟩
  have first := run fuel before (by omega)
  have second := run' fuel (before ++ chunks) (by omega)
  rw [← List.append_assoc, ← second]
  exact congrArg (Option.bind · _) first

theorem onFd_append (isStdout : Bool) (front back : List Chunk) :
    onFd isStdout (front ++ back) = onFd isStdout front ++ onFd isStdout back := List.flatMap_append

/-- From what is written to `fd` the parser gets `b`. -/
def Shows (isStdout : Bool) (printer : Printer Unit) (parser : Parser UInt8 β) (b : β) : Prop :=
  ∃ chunks, Prints printer chunks () ∧ Reads parser (onFd isStdout chunks) b

variable {isStdout : Bool}

theorem Shows.andThen {first second : Printer Unit} {parser : Parser UInt8 β}
    {next : β → Parser UInt8 γ} {b : β} {c : γ} (shows : Shows isStdout first parser b)
    (shows' : Shows isStdout second (next b) c) :
    Shows isStdout (first >>= fun _ => second) (andThen parser next) c := by
  obtain ⟨chunks, prints, reads⟩ := shows
  obtain ⟨chunks', prints', reads'⟩ := shows'
  refine ⟨chunks ++ chunks', prints.bind prints', ?_⟩
  rw [onFd_append]
  exact reads.andThen reads'

/-- The last part of a report; the value depends on all parts. -/
theorem Shows.last {printer : Printer Unit} {parser : Parser UInt8 β} {b : β}
    (shows : Shows isStdout printer parser b) (f : β → γ) :
    Shows isStdout printer (Parse.andThen parser fun b => done (f b)) (f b) := by
  obtain ⟨chunks, prints, reads⟩ := shows
  exact ⟨chunks, prints, reads.map f⟩

/-- A call in front that writes nothing. -/
theorem Shows.behind {first : Printer α} {a : α} {next : α → Printer Unit} {parser : Parser UInt8 β}
    {b : β} (nothing : Prints first [] a) (shows : Shows isStdout (next a) parser b) :
    Shows isStdout (first >>= next) parser b := by
  obtain ⟨chunks, prints, reads⟩ := shows
  exact ⟨chunks, nothing.bind prints, reads⟩

theorem prints_silently {call : Nat → Option α} {a : α} (ends : Ends call a) :
    Prints (silently call) [] a := by
  obtain ⟨rounds, ended⟩ := ends
  refine ⟨rounds, fun fuel before enough => ?_⟩
  rw [silently, ended fuel enough, List.append_nil]
  rfl

theorem shows_fprintf {str : List UInt8} {parser : Parser UInt8 β} {b : β}
    (reads : Reads parser str b) :
    Shows isStdout (fprintf str) parser b :=
  ⟨[.fd str], ⟨0, fun _ _ _ => rfl⟩, by rw [onFd, List.flatMap_singleton]; exact reads⟩

theorem shows_literal (str : List UInt8) : Shows isStdout (fprintf str) (literal str) () :=
  shows_fprintf (reads_literal str)

theorem shows_forEach {body : α → Printer Unit} {item : Parser UInt8 β} {count : Nat} {vec : List α}
    {f : α → β} (counted : vec.length = count)
    (shows : ∀ a ∈ vec, Shows isStdout (body a) item (f a)) :
    Shows isStdout (forEach body count vec) (many item count) (vec.map f) := by
  subst counted
  induction vec with
  | nil => exact ⟨[], prints_pure (), reads_done []⟩
  | cons a vec inductionHypothesis =>
    have others := inductionHypothesis fun a member => shows a (List.mem_cons_of_mem _ member)
    exact (shows a List.mem_cons_self).andThen (others.last (f a :: ·))

/-! ## Fields -/

def readNumber (tag : List UInt8) : Parser UInt8 Nat :=
  andThen (literal (aligned tag ++ text " : 0x")) fun _ =>
    andThen (number 16 (text " (")) fun val =>
    andThen (number 10 (text ")\n")) fun _ => done val

def readUint8 (tag : List UInt8) : Parser UInt8 UInt8 :=
  andThen (readNumber tag) fun val => done (UInt8.ofNat val)

def readUint32 (tag : List UInt8) : Parser UInt8 UInt32 :=
  andThen (readNumber tag) fun val => done (UInt32.ofNat val)

def readUint64 (tag : List UInt8) : Parser UInt8 UInt64 :=
  andThen (readNumber tag) fun val => done (UInt64.ofNat val)

def readBytes (size : Nat) : Parser UInt8 (List UInt8) :=
  andThen (take (2 * size)) fun digits => done (ofHexDigits digits)

def readString (tag : List UInt8) : Parser UInt8 (List UInt8) :=
  andThen (literal (aligned tag ++ text " : [")) fun _ =>
    andThen (take BcHashStringSize) fun digits =>
    andThen (literal (text "] (str)\n")) fun _ => done digits

/-- The single bytes are there on `stdout` only, but the digits of the string suffice. -/
def readHash32 (isStdout : Bool) (tag : List UInt8) : Parser UInt8 BcHash32 :=
  andThen (readString tag) fun digits => andThen (literal (aligned [] ++ text " : [")) fun _ =>
    andThen (take (if isStdout then 64 else 0)) fun _ =>
      andThen (literal (text "] (hex)\n")) fun _ =>
      done (hash32OfChars digits)

def readData (tag : List UInt8) (size : Nat) : Parser UInt8 (List UInt8) :=
  andThen (literal (aligned tag ++ text " : [")) fun _ => andThen (readBytes size) fun data =>
    andThen (literal (text "]\n")) fun _ => done data

theorem reads_hexadecimal (width val : Nat) :
    Reads (number 16 (text " (")) (padded width 16 val ++ text " (") val := by
  have first : (text " (").head? = some 32 := by decide
  exact reads_padded (by decide) (by decide) first (by decide) width val

theorem reads_decimal (val : Nat) :
    Reads (number 10 (text ")\n")) (numeral 10 val ++ text ")\n") val := by
  have first : (text ")\n").head? = some 41 := by decide
  have reads := reads_padded (by decide) (show 10 ≤ 16 by decide) first (by decide) 0 val
  rwa [padded, Nat.zero_sub, List.replicate_zero, List.nil_append] at reads

theorem shows_number (width : Nat) (tag : List UInt8) (val : Nat) :
    Shows isStdout (fprintNumber width tag val) (readNumber tag) val := by
  have all : Reads (readNumber tag)
    (aligned tag ++ text " : 0x" ++ ((padded width 16 val ++ text " (") ++
      (numeral 10 val ++ text ")\n"))) val :=
    (reads_literal _).andThen
      ((reads_hexadecimal width val).andThen ((reads_decimal val).map fun _ => val))
  simp only [← List.append_assoc] at all
  exact shows_fprintf all

theorem shows_uint8 (tag : List UInt8) (val : UInt8) :
    Shows isStdout (bcFprintFieldUint8 tag val) (readUint8 tag) val := by
  have shows := (@shows_number isStdout 2 tag val.toNat).last UInt8.ofNat
  rwa [UInt8.ofNat_toNat] at shows

theorem shows_uint32 (tag : List UInt8) (val : UInt32) :
    Shows isStdout (bcFprintFieldUint32 tag val) (readUint32 tag) val := by
  have shows := (@shows_number isStdout 8 tag val.toNat).last UInt32.ofNat
  rwa [UInt32.ofNat_toNat] at shows

theorem shows_uint64 (tag : List UInt8) (val : UInt64) :
    Shows isStdout (bcFprintFieldUint64 tag val) (readUint64 tag) val := by
  have shows := (@shows_number isStdout 16 tag val.toNat).last UInt64.ofNat
  rwa [UInt64.ofNat_toNat] at shows

theorem shows_varint (tag : List UInt8) (val : UInt64) :
    Shows isStdout (bcFprintFieldVarint tag val) (readUint64 tag) val := by
  have shows := (@shows_number isStdout 0 tag val.toNat).last UInt64.ofNat
  rwa [UInt64.ofNat_toNat] at shows

theorem padded_byte (byte : UInt8) : padded 2 16 byte.toNat = byteDigits byte := by
  have bound := byte.toNat_lt
  rw [padded, numeral_split (by decide), byteDigits]
  split_ifs with small
  · rw [Nat.div_eq_of_lt small, Nat.mod_eq_of_lt small]
    rfl
  · rw [numeral_split (by decide), if_pos (by omega)]
    rfl

theorem prints_printBytes {size : Nat} {data : List UInt8} (counted : data.length = size) :
    Prints (printBytes size data) (data.map fun byte => .stdout (byteDigits byte)) () := by
  subst counted
  induction data with
  | nil => exact prints_pure ()
  | cons byte data inductionHypothesis =>
    have first : Prints (printf (padded 2 16 byte.toNat)) [.stdout (byteDigits byte)] () := by
      rw [padded_byte]
      exact ⟨0, fun _ _ _ => rfl⟩
    exact first.bind inductionHypothesis

theorem onFd_bytes (data : List UInt8) :
    onFd isStdout (data.map fun byte => .stdout (byteDigits byte)) =
      if isStdout then lowerHex data else [] := by
  rw [onFd, List.flatMap_map]
  cases isStdout with
  | true => rfl
  | false => simp

theorem shows_data (tag : List UInt8) {data : List UInt8} {size : UInt64}
    (counted : data.length = size.toNat) :
    Shows true (bcFprintFieldData tag data size) (readData tag size.toNat) data := by
  have bytes : Shows true (printBytes size.toNat data) (readBytes size.toNat) data := by
    refine ⟨_, prints_printBytes counted, ?_⟩
    have reads := (reads_take (lowerHex_length data)).map ofHexDigits
    rw [ofHexDigits_lowerHex, counted] at reads
    rw [onFd_bytes]
    exact reads
  exact (shows_literal _).andThen (bytes.andThen ((shows_literal _).last fun _ => data))

theorem lowerHex_hash_length (val : BcHash32) :
    (lowerHex val.toList.reverse).length = BcHashStringSize := by
  rw [lowerHex_length, List.length_reverse, Vector.length_toList]
  rfl

theorem hash32OfChars_lowerHex (val : BcHash32) :
    hash32OfChars (lowerHex val.toList.reverse) = val := by
  have chars := hash32OfChars_toList (lowerHex_hash_length val) []
  rw [List.append_nil, ofHexDigits_lowerHex, List.reverse_reverse] at chars
  exact Vector.toList_inj.mp chars

theorem cString_hash32Hex {hashStr : Nat → UInt8} {val : BcHash32}
    (written : hash32Hex hashStr = lowerHex val.toList.reverse ++ [0]) :
    cString (hash32Hex hashStr) = lowerHex val.toList.reverse := by
  have noNul : ∀ char ∈ lowerHex val.toList.reverse, char ≠ 0 := by
    rintro char member rfl
    exact absurd (lowerHex_isLower member).1 (by decide)
  rw [written]
  exact cString_padded noNul 1

theorem shows_hash32 (tag : List UInt8) (val : BcHash32) :
    Shows isStdout (bcFprintFieldHash32 tag val) (readHash32 isStdout tag) val := by
  obtain ⟨hashStr, made, written⟩ := bcHash32StrMake_spec (fun _ => 0) val
  have string : Reads (readString tag)
      (aligned tag ++ text " : [" ++ (cString (hash32Hex hashStr) ++ text "] (str)\n"))
      (lowerHex val.toList.reverse) := by
    rw [cString_hash32Hex written]
    exact (reads_literal _).andThen
      ((reads_take (lowerHex_hash_length val)).andThen ((reads_literal _).map fun _ => _))
  -- the single bytes reach the reader only if `fd` is `stdout`
  have bytes : Shows isStdout (printBytes 32 val.toList) (take (if isStdout then 64 else 0))
      (if isStdout then lowerHex val.toList else []) := by
    refine ⟨_, prints_printBytes (by simp), ?_⟩
    rw [onFd_bytes]
    apply reads_take
    cases isStdout with
    | true => simp [lowerHex_length]
    | false => rfl
  rw [← List.append_assoc] at string
  refine Shows.behind (prints_silently made)
    ((shows_fprintf string).andThen ((shows_literal _).andThen
    (bytes.andThen ?_)))
  rw [hash32OfChars_lowerHex]
  exact (shows_literal _).last fun _ => val

/-! ## Headers -/

/-- With the hash in the last field. -/
def readBlockHeader (isStdout : Bool) : Parser UInt8 (BcBlockHeader × BcHash32) :=
  andThen (literal (text "- BlockHeader:\n")) fun _ =>
    andThen (readUint32 (text "version")) fun version =>
      andThen (readHash32 isStdout (text "prev_block")) fun hashPrevBlock =>
        andThen (readHash32 isStdout (text "merkle_root")) fun hashMerkleRoot =>
          andThen (readUint32 (text "time")) fun timestamp =>
            andThen (readUint32 (text "bits")) fun bits =>
              andThen (readUint32 (text "nonce")) fun nonce =>
                andThen (readHash32 isStdout (text "HASH32")) fun hash =>
                  done (⟨version, hashPrevBlock, hashMerkleRoot, timestamp, bits, nonce⟩, hash)

theorem bcBlockHeaderHash32_eq (hdr : BcBlockHeader) (hash : BcHash32) :
    bcBlockHeaderHash32 hdr hash = some (0, hash256 hdr.bytes) := by
  have length := hdr.bytes_length
  obtain ⟨sum, run, value⟩ := hash256Digest_spec hdr.bytes 80 hash (by rw [length]; decide)
  rw [List.take_of_length_le (by rw [length]; decide)] at value
  rw [bcBlockHeaderHash32, run, eq_hash256 value]

theorem shows_blockHeader (isStdout : Bool) (hdr : BcBlockHeader) :
    Shows isStdout (bcFprintBlockHeader hdr) (readBlockHeader isStdout)
      (hdr, hash256 hdr.bytes) := by
  have hashed : Ends (fun _ => bcBlockHeaderHash32 hdr (Vector.replicate 32 0))
    (0, hash256 hdr.bytes) :=
    Ends.of_all fun _ => bcBlockHeaderHash32_eq hdr _
  exact Shows.behind (prints_silently hashed) ((shows_literal _).andThen ((shows_uint32 _ _).andThen
    ((shows_hash32 _ _).andThen
      ((shows_hash32 _ _).andThen ((shows_uint32 _ _).andThen ((shows_uint32 _ _).andThen
      ((shows_uint32 _ _).andThen ((shows_hash32 _ _).last fun hash => (hdr, hash)))))))))

/-- The report of a header shows its six fields and its hash, on `stdout`
and on any other stream. -/
theorem bcFprintBlockHeader_shows (isStdout : Bool) (hdr : BcBlockHeader) :
    Shows isStdout (bcFprintBlockHeader hdr) (readBlockHeader isStdout) (hdr, hash256 hdr.bytes) :=
  shows_blockHeader isStdout hdr

/-! ## Transactions -/

def readTxInput : Parser UInt8 BcTxInput :=
  andThen (literal (text " - TxInput:\n")) fun _ =>
    andThen (readHash32 true (text "txid")) fun txid =>
    andThen (readUint32 (text "vout")) fun vout =>
      andThen (readUint64 (text "sig_size")) fun scriptSigSize =>
      andThen (readData (text "sig") scriptSigSize.toNat) fun scriptSig =>
        andThen (readUint32 (text "sequence")) fun sequence =>
          done ⟨txid, vout, scriptSigSize, scriptSig, sequence⟩

def readWitnessField : Parser UInt8 BcWitnessField :=
  andThen (readUint64 (text "size")) fun size =>
    andThen (readData (text "item") size.toNat) fun data =>
    done ⟨size, some data⟩

def readTxWitness : Parser UInt8 BcWitness :=
  andThen (literal (text " - Witness:\n")) fun _ =>
    andThen (readUint64 (text "stack_items")) fun stackItems =>
    andThen (many readWitnessField stackItems.toNat) fun items => done ⟨stackItems, some items⟩

def readTxOutput : Parser UInt8 BcTxOutput :=
  andThen (literal (text " - TxOutput:\n")) fun _ =>
    andThen (readUint64 (text "amount")) fun amount =>
    andThen (readUint64 (text "pub_key_size")) fun scriptPubKeySize =>
      andThen (readData (text "pub_key") scriptPubKeySize.toNat) fun scriptPubKey =>
        done ⟨amount, scriptPubKeySize, scriptPubKey⟩

def readInputs : Nat → Parser UInt8 (List BcTxInput × List BcWitness)
  | 0 => done ([], [])
  | count + 1 => andThen readTxInput fun txi => andThen readTxWitness fun w =>
      andThen (readInputs count) fun (inVec, witnessVec) => done (txi :: inVec, w :: witnessVec)

/-- With the hash in the first field. -/
def readTxInfo : Parser UInt8 (BcTxInfo × BcHash32) :=
  andThen (literal (text "- Transaction\n")) fun _ =>
    andThen (readHash32 true (text "HASH32")) fun hash =>
    andThen (readUint32 (text "version")) fun version =>
      andThen (readUint8 (text "marker")) fun marker =>
      andThen (readUint8 (text "flags")) fun flags =>
        andThen (readUint64 (text "in_count")) fun inCount =>
        andThen (readUint64 (text "out_count")) fun outCount =>
          andThen (readUint32 (text "lock_time")) fun lockTime =>
            andThen (readInputs inCount.toNat) fun (inVec, witnessVec) =>
              andThen (many readTxOutput outCount.toNat) fun outVec =>
                done
                  (⟨version, inCount, inVec, outCount, outVec, lockTime, marker, flags, witnessVec⟩,
                    hash)

theorem shows_txInput (txi : BcTxInput) (counted : txi.scriptSig.length = txi.scriptSigSize.toNat) :
    Shows true (bcFprintTxInput txi) readTxInput txi :=
  (shows_literal _).andThen
    ((shows_hash32 _ _).andThen ((shows_uint32 _ _).andThen ((shows_varint _ _).andThen
    ((shows_data _ counted).andThen ((shows_uint32 _ _).last fun sequence =>
      { txi with sequence := sequence })))))

/-! A report does not tell NULL from an empty array. -/

def shownField (f : BcWitnessField) : BcWitnessField := { f with data := some f.bytes }

def shownWitness (w : BcWitness) : BcWitness := { w with items := some (w.entries.map shownField) }

def shown (tx : BcTxInfo) : BcTxInfo := { tx with witnessVec := tx.witnessVec.map shownWitness }

/-- No pointer of the witnesses is NULL. -/
structure NonNull (tx : BcTxInfo) : Prop where
  items : ∀ w ∈ tx.witnessVec, w.items ≠ none
  data : ∀ w ∈ tx.witnessVec, ∀ f ∈ w.entries, f.data ≠ none

theorem map_self {α : Type} {change : α → α} {vec : List α} (same : ∀ a ∈ vec, change a = a) :
    vec.map change = vec := (List.map_congr_left same).trans (List.map_id' vec)

theorem NonNull.shown {tx : BcTxInfo} (nonNull : NonNull tx) : shown tx = tx := by
  have witnesses : tx.witnessVec.map shownWitness = tx.witnessVec := by
    refine map_self fun w member => ?_
    have fields : w.entries.map shownField = w.entries := by
      refine map_self fun f inside => ?_
      rw [shownField, BcWitnessField.bytes, Option.getD_of_ne_none (nonNull.data w member f inside)]
    rw [shownWitness, fields, BcWitness.entries, Option.getD_of_ne_none (nonNull.items w member)]
  rw [Report.shown, witnesses]

theorem shows_witnessField (f : BcWitnessField) (counted : f.bytes.length = f.size.toNat) :
    Shows true (fprintWitnessField f) readWitnessField (shownField f) :=
  (shows_varint _ _).andThen ((shows_data _ counted).last fun data => { f with data := some data })

theorem shows_txWitness (w : BcWitness) (counted : w.entries.length = w.stackItems.toNat)
    (sizes : ∀ f ∈ w.entries, f.bytes.length = f.size.toNat) :
    Shows true (bcFprintTxWitness w) readTxWitness (shownWitness w) := by
  have items := shows_forEach (f := shownField) counted fun f member =>
    shows_witnessField f (sizes f member)
  exact (shows_literal _).andThen ((shows_varint _ _).andThen
    (items.last fun items => { w with items := some items }))

theorem shows_txOutput (txo : BcTxOutput)
    (counted : txo.scriptPubKey.length = txo.scriptPubKeySize.toNat) :
    Shows true (bcFprintTxOutput txo) readTxOutput txo :=
  (shows_literal _).andThen ((shows_uint64 _ _).andThen ((shows_varint _ _).andThen
    ((shows_data _ counted).last fun script => { txo with scriptPubKey := script })))

theorem shows_inputs {count : Nat} {inVec : List BcTxInput} {witnessVec : List BcWitness}
    (inputs : inVec.length = count) (witnesses : witnessVec.length = count)
    (scriptSigs : ∀ txi ∈ inVec, txi.scriptSig.length = txi.scriptSigSize.toNat)
    (stackSizes : ∀ w ∈ witnessVec, w.entries.length = w.stackItems.toNat)
    (itemSizes : ∀ w ∈ witnessVec, ∀ f ∈ w.entries, f.bytes.length = f.size.toNat) :
    Shows true (forInputs count inVec witnessVec) (readInputs count)
      (inVec, witnessVec.map shownWitness) := by
  induction count generalizing inVec witnessVec with
  | zero =>
    obtain rfl := List.length_eq_zero_iff.mp inputs
    obtain rfl := List.length_eq_zero_iff.mp witnesses
    exact ⟨[], prints_pure (), reads_done _⟩
  | succ count inductionHypothesis =>
    obtain ⟨txi, inVec, rfl⟩ := List.exists_cons_of_length_eq_add_one inputs
    obtain ⟨w, witnessVec, rfl⟩ := List.exists_cons_of_length_eq_add_one witnesses
    have first := shows_txInput txi (scriptSigs txi List.mem_cons_self)
    have second := shows_txWitness w (stackSizes w List.mem_cons_self)
      (itemSizes w List.mem_cons_self)
    have others := inductionHypothesis (Nat.succ.inj inputs) (Nat.succ.inj witnesses)
      (fun txi member => scriptSigs txi (List.mem_cons_of_mem _ member))
      (fun w member => stackSizes w (List.mem_cons_of_mem _ member))
      (fun w member => itemSizes w (List.mem_cons_of_mem _ member))
    exact first.andThen
      (second.andThen (others.last fun vecs => (txi :: vecs.1, shownWitness w :: vecs.2)))

theorem shows_txInfo (fresh : Nat → Nat → UInt8) {tx : BcTxInfo} (counted : SegwitCounted tx)
    (short : (legacyCode tx).length < 2 ^ 32) :
    Shows true (bcFprintTxInfo (served fresh) tx) readTxInfo
      (shown tx, hash256 (legacyCode tx)) := by
  have hashed : Ends (fun _ => bcTxTxid (served fresh) tx (Vector.replicate 32 0))
      (0, hash256 (legacyCode tx)) :=
    Ends.of_all fun _ => bcTxTxid_eq counted.toCounted fresh _ short
  have outputs := shows_forEach (f := id) counted.outputs fun txo member =>
    shows_txOutput txo (counted.scriptPubKeys txo member)
  rw [List.map_id] at outputs
  have inputs := shows_inputs counted.inputs counted.witnesses counted.scriptSigs
    counted.stackSizes counted.itemSizes
  exact Shows.behind (prints_silently hashed) ((shows_literal _).andThen ((shows_hash32 _ _).andThen
    ((shows_uint32 _ _).andThen ((shows_uint8 _ _).andThen ((shows_uint8 _ _).andThen
      ((shows_varint _ _).andThen ((shows_varint _ _).andThen ((shows_uint32 _ _).andThen
        (inputs.andThen (outputs.last fun outVec =>
          ({ shown tx with outVec := outVec }, hash256 (legacyCode tx))))))))))))

/-- The report of a transaction on `stdout` shows all of it, witnesses included, and its id. -/
theorem bcFprintTxInfo_shows (fresh : Nat → Nat → UInt8) (tx : BcTxInfo)
    (counted : SegwitCounted tx) (short : (legacyCode tx).length < 2 ^ 32) :
    Shows true (bcFprintTxInfo (served fresh) tx) readTxInfo (shown tx, hash256 (legacyCode tx)) ∧
      (NonNull tx → shown tx = tx) := ⟨shows_txInfo fresh counted short, NonNull.shown⟩

theorem bcFprintTxInfo_shows_coinbase :
    Shows true (bcFprintTxInfo (served fun _ _ => 0) coinbase) readTxInfo
      (shown coinbase, hash256 (legacyCode coinbase)) ∧ shown coinbase = coinbase := by
  have shows := bcFprintTxInfo_shows (fun _ _ => 0) coinbase coinbase_segwitCounted (by decide)
  exact ⟨shows.1, shows.2 ⟨by decide, by decide⟩⟩

end NuLab.Report
