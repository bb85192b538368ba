import NuLab.Lib.Levels
import NuLab.Merkle.Code
import NuLab.Sha256.Digest

/-! # The Merkle root

Every level is read from the source of the level before and written to the first
elements of the buffer.  Writing in place overwrites only hashes that have been
read, and the two elements that hold the doubled last hash lie behind all levels.
-/

namespace NuLab.Merkle

open NuLab.Dca NuLab.Sha256 NuLab.Levels

/-! ## What the pair hash computes -/

/-- Double SHA-256 of two hashes, one after the other. -/
def hashPair (left right : BcHash32) : BcHash32 := hash256 (left.toList ++ right.toList)

/-! ## The consumed elements -/

/-- What the model does to the list of hashes is what the call does to their array. -/
theorem consume_hashes (nelems : UInt64) {off : UInt64} {pp : Option Block} {buf : List BcHash32}
    (answer : Option Grant) (header : 16 ≤ off.toNat) (holds : Holds Vector.toList off pp buf)
    (fits : NoWrap off 32 pp (.consume nelems, answer)) :
    ∃ out reply, nuMboxDcaConsume pp off 32 nelems answer = some out ∧
      match consumeElems buf nelems.toNat reply with
      | none => out.ret = none ∧ out.pp = pp
      | some after => Holds Vector.toList off out.pp after ∧
          ∃ data, nuDcaData out.pp off = some data ∧ out.ret = some (data + 32 * buf.length) := by
  have onto : ∀ bytes : List UInt8, bytes.length = (32 : UInt64).toNat →
      ∃ hash : BcHash32, hash.toList = bytes := by
    intro bytes length
    exact ⟨⟨bytes.toArray, length⟩, rfl⟩
  obtain ⟨out, run, ⟨null, same⟩ | ⟨fresh, after, data, consumed, stored, granted, address⟩⟩ :=
    consume_holds nelems answer header (fun hash : BcHash32 => hash.length_toList) onto holds fits
  · exact ⟨out, none, run, null, same⟩
  · refine ⟨out, some fresh, run, ?_⟩
    rw [consumed]
    exact ⟨stored, data, granted, address⟩

/-! ## Frames -/

/-- From `mem` to `mem'` only the consumed elements at `touched` positions change. -/
structure Frame (touched : Nat → Prop) (mem mem' : Memory) : Prop where
  txids : mem'.txids = mem.txids
  op : mem'.op = mem.op
  length : mem'.buf.length = mem.buf.length
  outside : ∀ k, (∀ i, k = mem.op + i → ¬ touched i) → mem'.buf[k]? = mem.buf[k]?

variable {touched : Nat → Prop} {mem mem' mem'' : Memory}

theorem Frame.refl (touched : Nat → Prop) (mem : Memory) : Frame touched mem mem :=
  ⟨rfl, rfl, rfl, fun _ _ => rfl⟩

theorem Frame.trans (first : Frame touched mem mem') (second : Frame touched mem' mem'') :
    Frame touched mem mem'' where
  txids := second.txids.trans first.txids
  op := second.op.trans first.op
  length := second.length.trans first.length
  outside k untouched :=
    (second.outside k (first.op.symm ▸ untouched)).trans (first.outside k untouched)

theorem Frame.mono {more : Nat → Prop} (frame : Frame touched mem mem')
    (weaker : ∀ i, touched i → more i) :
    Frame more mem mem' where
  txids := frame.txids
  op := frame.op
  length := frame.length
  outside k untouched := frame.outside k fun i position => mt (weaker i) (untouched i position)

theorem Frame.load {i : Nat} {ip : Source} (frame : Frame touched mem mem')
    (untouched : ip = .op → ¬ touched i) :
    mem'.load ip i = mem.load ip i := by
  cases ip with
  | txids => exact congrArg (fun txids => txids[i]?) frame.txids
  | op =>
    simp only [Memory.load, frame.op]
    refine frame.outside _ fun j position => ?_
    obtain rfl : i = j := Nat.add_left_cancel position
    exact untouched rfl

/-- The elements that were in the buffer before. -/
theorem Frame.take (frame : Frame touched mem mem') :
    mem'.buf.take mem.op = mem.buf.take mem.op := by
  apply List.ext_getElem?
  intro k
  by_cases before : k < mem.op
  · rw [List.getElem?_take_of_lt before, List.getElem?_take_of_lt before]
    exact frame.outside k fun i position => by omega
  · rw [List.getElem?_eq_none (by rw [List.length_take]; omega),
      List.getElem?_eq_none (by rw [List.length_take]; omega)]

theorem write_frame (mem : Memory) (i : Nat) (hash : BcHash32) :
    Frame (· = i) mem (mem.write i hash) where
  txids := rfl
  op := rfl
  length := List.length_set
  outside k untouched := by
    have different : mem.op + i ≠ k := fun same => untouched i same.symm rfl
    rw [Memory.write, List.getElem?_set_ne different]

theorem load_write (mem : Memory) (i : Nat) (hash : BcHash32)
    (inside : mem.op + i < mem.buf.length) :
    (mem.write i hash).load .op i = some hash := by
  simp only [Memory.load, Memory.write]
  exact List.getElem?_set_self inside

theorem store_eq {i : Nat} (hash : BcHash32) (inside : mem.op + i < mem.buf.length) :
    mem.store i hash = some (mem.write i hash) := if_pos inside

/-! ## One level -/

theorem bcHash32PairHash_spec {ip : Source} {i j : Nat} {left right : BcHash32}
    (first : mem.load ip j = some left) (second : mem.load ip (j + 1) = some right)
    (inside : mem.op + i < mem.buf.length) :
    bcHash32PairHash mem ip j i = some (mem.write i (hashPair left right)) := by
  have old : mem.load .op i = some mem.buf[mem.op + i] := List.getElem?_eq_getElem inside
  obtain ⟨sum, run, value⟩ :=
    hash256Digest_spec (left.toList ++ right.toList) 64 mem.buf[mem.op + i] (by simp)
  rw [List.take_of_length_le (by simp)] at value
  rw [bcHash32PairHash, first, second, old]
  simp only [Option.bind_eq_bind, Option.bind_some, run, store_eq _ inside]
  rw [eq_hash256 value, hashPair]

/-- The pairs from `i` on: what has been written is hashed, what is still to
be read is as it was. -/
theorem hashPairs_spec (mem : Memory) (ip : Source) (limit i : Nat) (level : List BcHash32)
    (room : mem.op + limit ≤ mem.buf.length) (complete : 2 * limit ≤ level.length)
    (order : i ≤ limit) (unread : ∀ k, 2 * i ≤ k → k < level.length → mem.load ip k = level[k]?)
    (done : ∀ k < i, mem.load .op k = (halve hashPair level)[k]?) :
    ∃ mem', hashPairs mem ip limit i = some mem' ∧ Frame (· < limit) mem mem' ∧
      ∀ k < limit, mem'.load .op k = (halve hashPair level)[k]? := by
  rw [hashPairs]
  by_cases more : i < limit
  · -- position `i` is written after its own children were read, and no later pair reads it
    have left : mem.load ip (i * 2) = some level[2 * i] := by
      rw [Nat.mul_comm, unread (2 * i) (Nat.le_refl _) (by omega), List.getElem?_eq_getElem]
    have right : mem.load ip (i * 2 + 1) = some level[2 * i + 1] := by
      rw [Nat.mul_comm, unread (2 * i + 1) (by omega) (by omega), List.getElem?_eq_getElem]
    have inside : mem.op + i < mem.buf.length := by omega
    have frame := write_frame mem i (hashPair level[2 * i] level[2 * i + 1])
    obtain ⟨mem', run, frame', hashed⟩ :=
      hashPairs_spec (mem.write i (hashPair level[2 * i] level[2 * i + 1])) ip limit
      (i + 1) level (by rw [frame.op, frame.length]; exact room) complete more
      (fun k later inLevel => by
        rw [frame.load (fun _ => by omega)]
        exact unread k (by omega) inLevel)
      (fun k before => by
        by_cases here : k = i
        · rw [here, load_write _ _ _ inside, halve_pair hashPair (by omega)]
        · rw [frame.load (fun _ => here)]
          exact done k (by omega))
    rw [if_pos more, bcHash32PairHash_spec left right inside]
    exact ⟨mem', run, (frame.mono fun k same => same ▸ more).trans frame', hashed⟩
  · rw [if_neg more]
    exact ⟨mem, rfl, Frame.refl _ mem, fun k before => done k (by omega)⟩
termination_by limit - i

theorem doubleLast_spec {ip : Source} {ext itx : Nat} {last : BcHash32}
    (found : mem.load ip (itx - 1) = some last) (room : mem.op + (ext + 1) < mem.buf.length)
    (apart : ip = .op → itx - 1 < ext) :
    ∃ mem', doubleLast mem ip ext itx = some mem' ∧ Frame (ext ≤ ·) mem mem' ∧
      mem'.op + (ext + 1) < mem'.buf.length ∧
      mem'.load .op ext = some last ∧ mem'.load .op (ext + 1) = some last := by
  have first := write_frame mem ext last
  have second := write_frame (mem.write ext last) (ext + 1) last
  have again : (mem.write ext last).load ip (itx - 1) = some last := by
    rw [first.load (fun inPlace => Nat.ne_of_lt (apart inPlace)), found]
  have room' : (mem.write ext last).op + (ext + 1) < (mem.write ext last).buf.length := by
    rw [first.op, first.length]
    exact room
  refine ⟨(mem.write ext last).write (ext + 1) last, ?_, ?_, ?_, ?_, load_write _ _ _ room'⟩
  · rw [doubleLast, found, Option.bind_eq_bind, Option.bind_some, Nat.add_zero,
      store_eq _ (by omega), Option.bind_eq_bind, Option.bind_some, again, Option.bind_some,
      store_eq _ room']
  · exact (first.mono fun i same => Nat.le_of_eq same.symm).trans
      (second.mono fun i same => by omega)
  · rw [second.op, second.length]
    exact room'
  · rw [second.load (fun _ => by omega), load_write _ _ _ (by omega)]

/-- One level, read from `ip`: the first elements are the next level. -/
theorem hashLevel_spec {ip : Source} {ext : Nat} {level : List BcHash32}
    (several : 1 < level.length) (fits : (level.length + 1) / 2 ≤ ext)
    (room : mem.op + (ext + 1) < mem.buf.length) (apart : ip = .op → level.length ≤ ext)
    (holds : ∀ k < level.length, mem.load ip k = level[k]?) :
    ∃ mem', hashLevel mem ip ext level.length = some mem' ∧ Frame (fun _ => True) mem mem' ∧
      ∀ k < (level.length + 1) / 2, mem'.load .op k = (halve hashPair level)[k]? := by
  unfold hashLevel
  by_cases odd : level.length % 2 ≠ 0
  · -- the last hash is doubled behind all levels before the pairs overwrite anything
    have last : mem.load ip (level.length - 1) = some level[level.length - 1] := by
      rw [holds _ (by omega), List.getElem?_eq_getElem]
    obtain ⟨mem1, double, frame1, room1, scratch, scratch'⟩ := doubleLast_spec last room
      (fun inPlace => by have := apart inPlace; omega)
    obtain ⟨mem2, pairs, frame2, hashed⟩ :=
      hashPairs_spec mem1 ip ((level.length + 1) / 2 - level.length % 2) 0 level
      (by omega) (by omega) (Nat.zero_le _)
      (fun k _ inLevel => by
        rw [frame1.load (fun inPlace => by have := apart inPlace; omega)]
        exact holds k inLevel)
      (fun k before => absurd before (Nat.not_lt_zero k))
    have room2 : mem2.op + ((level.length + 1) / 2 - 1) < mem2.buf.length := by
      rw [frame2.op, frame2.length]
      omega
    -- the pairs have left the two doubled hashes alone, so the last position gets their hash
    have frame3 := write_frame mem2 ((level.length + 1) / 2 - 1)
      (hashPair level[level.length - 1] level[level.length - 1])
    simp only [if_pos odd, double, Option.bind_eq_bind, Option.bind_some, pairs]
    rw [bcHash32PairHash_spec (by rw [frame2.load (fun _ => by omega), scratch])
      (by rw [frame2.load (fun _ => by omega), scratch']) room2]
    refine ⟨_, rfl, ?_, ?_⟩
    · exact (frame1.mono fun _ _ => trivial).trans
        ((frame2.mono fun _ _ => trivial).trans (frame3.mono fun _ _ => trivial))
    · intro k inside
      by_cases isLast : k = (level.length + 1) / 2 - 1
      · rw [isLast, load_write _ _ _ room2, halve_last hashPair (by omega)]
        congr 3 <;> omega
      · rw [frame3.load (fun _ => isLast)]
        exact hashed k (by omega)
  · obtain ⟨mem', pairs, frame, hashed⟩ :=
      hashPairs_spec mem ip ((level.length + 1) / 2 - level.length % 2) 0 level
      (by omega) (by omega) (Nat.zero_le _) (fun k _ inLevel => holds k inLevel)
      (fun k before => absurd before (Nat.not_lt_zero k))
    simp only [if_neg odd, Option.bind_eq_bind, Option.bind_some, pairs]
    exact ⟨mem', rfl, frame.mono fun _ _ => trivial, fun k inside => hashed k (by omega)⟩

/-! ## All levels -/

theorem hashLevels_spec (mem : Memory) (ip : Source) (ext : Nat) (level : List BcHash32)
    (nonempty : 0 < level.length) (fits : (level.length + 1) / 2 ≤ ext)
    (room : mem.op + (ext + 1) < mem.buf.length) (apart : ip = .op → level.length ≤ ext)
    (holds : ∀ k < level.length, mem.load ip k = level[k]?) :
    ∃ ip' mem', hashLevels mem ip ext level.length = some (ip', 1, mem') ∧
      Frame (fun _ => True) mem mem' ∧
      mem'.load ip' 0 = reduce hashPair level := by
  rw [hashLevels]
  by_cases several : 1 < level.length
  · -- from the second level on, source and target are the same elements
    obtain ⟨mem1, run, frame, hashed⟩ := hashLevel_spec several fits room apart holds
    obtain ⟨ip', mem', rest, frame', root⟩ := hashLevels_spec mem1 .op ext (halve hashPair level)
      (by rw [halve_length]; omega) (by rw [halve_length]; omega)
      (by rw [frame.op, frame.length]; exact room)
      (fun _ => by rw [halve_length]; exact fits)
      (fun k inside => hashed k (by rwa [halve_length] at inside))
    rw [halve_length] at rest
    rw [dif_pos several, run, Option.bind_eq_bind, Option.bind_some, rest]
    exact ⟨ip', mem', rfl, frame.trans frame', by rw [root, reduce_halve hashPair several]⟩
  · have one : level.length = 1 := by omega
    rw [dif_neg several, one]
    exact ⟨ip, mem, rfl, Frame.refl _ mem, by rw [holds 0 nonempty, reduce_one hashPair one]⟩
termination_by level.length
decreasing_by
  rw [halve_length]
  omega

theorem clearElems_spec (mem : Memory) (count : Nat) (room : mem.op + count ≤ mem.buf.length) :
    ∃ mem', clearElems mem count = some mem' ∧ mem'.txids = mem.txids ∧ mem'.op = mem.op ∧
      mem'.buf.length = mem.buf.length ∧ mem'.buf.take mem.op = mem.buf.take mem.op := by
  refine ⟨_, if_pos room, rfl, rfl, ?_, ?_⟩
  · simp only [List.length_append, List.length_take, List.length_replicate, List.length_drop]
    omega
  · exact List.take_left' (List.length_take_of_le (by omega))

/-- With memory and at least one id, the call leaves the root in the first of
the consumed elements. -/
theorem bcMerkleRoot_run (txids buf : List BcHash32) (fresh : Nat → BcHash32)
    (nonempty : txids ≠ []) :
    ∃ root consumed, reduce hashPair txids = some root ∧
      bcMerkleRoot txids buf (some fresh) = some (0, txids, buf ++ consumed) ∧
      consumed.length = (txids.length + 1) / 2 + 2 ∧ consumed[0]? = some root := by
  have positive : 0 < txids.length := List.length_pos_iff.mpr nonempty
  let elems := buf ++ (List.range ((txids.length + 1) / 2 + 2)).map fresh
  have size : elems.length = buf.length + ((txids.length + 1) / 2 + 2) := by simp [elems]
  obtain ⟨mem1, clear, ids, op, length, kept⟩ := clearElems_spec ⟨txids, elems, buf.length⟩
    ((txids.length + 1) / 2) (by show buf.length + _ ≤ elems.length; omega)
  have ids : mem1.txids = txids := ids
  have op : mem1.op = buf.length := op
  have length : mem1.buf.length = elems.length := length
  obtain ⟨ip, mem2, levels, frame, top⟩ :=
    hashLevels_spec mem1 .txids ((txids.length + 1) / 2) txids positive
    (Nat.le_refl _) (by rw [op, length, size]; omega) (fun inPlace => by cases inPlace)
    (fun k _ => congrArg (fun list => list[k]?) ids)
  obtain ⟨root, isRoot⟩ := reduce_isSome hashPair txids positive
  have inside : mem2.op + 0 < mem2.buf.length := by
    rw [frame.op, frame.length, op, length, size]
    omega
  -- the hash left in the first element is stored there once more; for one id it comes from the ids
  have whole := frame.trans ((write_frame mem2 0 root).mono fun _ _ => trivial)
  have old : (mem2.write 0 root).buf.take buf.length = buf := by
    rw [← op, whole.take, op, kept, List.take_left]
  refine ⟨root, (mem2.write 0 root).buf.drop buf.length, isRoot, ?_, ?_, ?_⟩
  · rw [bcMerkleRoot, if_neg (by omega)]
    simp only [Option.bind_eq_bind, consumeElems, Option.map_some, Option.bind_some,
      elems] at clear ⊢
    rw [clear, Option.bind_some, levels, Option.bind_some]
    simp only [if_pos, top, isRoot, Option.bind_some, store_eq root inside]
    have split := List.take_append_drop buf.length (mem2.write 0 root).buf
    rw [old] at split
    rw [whole.txids, ids, split]
  · rw [List.length_drop, whole.length, length, size, Nat.add_sub_cancel_left]
  · have first := load_write mem2 0 root inside
    rw [← first, List.getElem?_drop, ← op, ← frame.op]
    rfl

/-- The root of a non-empty list of ids is left in the first of the consumed elements, and
nothing else changes. -/
theorem bcMerkleRoot_reduce (txids buf : List BcHash32) (fresh : Nat → BcHash32)
    (nonempty : txids ≠ []) :
    ∃ consumed, bcMerkleRoot txids buf (some fresh) = some (0, txids, buf ++ consumed) ∧
      consumed.length = (txids.length + 1) / 2 + 2 ∧ consumed[0]? = reduce hashPair txids := by
  obtain ⟨root, consumed, isRoot, run, length, first⟩ := bcMerkleRoot_run txids buf fresh nonempty
  exact ⟨consumed, run, length, first.trans isRoot.symm⟩

/-- Three ids, and a buffer that holds one hash already. -/
theorem bcMerkleRoot_reduce_three :
    let id (byte : UInt8) : BcHash32 := Vector.replicate 32 byte
    ∃ consumed, bcMerkleRoot [id 1, id 2, id 3] [id 9] (some fun _ => id 255) =
        some (0, [id 1, id 2, id 3], id 9 :: consumed) ∧ consumed.length = 4 ∧
      consumed[0]? = some (hashPair (hashPair (id 1) (id 2)) (hashPair (id 3) (id 3))) := by
  intro id
  obtain ⟨consumed, run, length, first⟩ :=
    bcMerkleRoot_reduce [id 1, id 2, id 3] [id 9] (fun _ => id 255)
    (List.cons_ne_nil _ _)
  refine ⟨consumed, run, by rw [length]; simp, first.trans ?_⟩
  rw [reduce, halve, halve, reduce, halve, halve, reduce]

/-- Ids that are repeated at the end of an odd level leave the root as it is, so that it does not
say how many ids there are. -/
theorem bcMerkleRoot_doubled (k : Nat) (front back buf : List BcHash32)
    (fresh fresh' : Nat → BcHash32) (size : back.length = 2 ^ k) (nonempty : 0 < front.length)
    (whole : 2 ^ (k + 1) ∣ front.length) :
    ∃ root consumed consumed',
      bcMerkleRoot (front ++ back) buf (some fresh) = some (0, front ++ back, buf ++ consumed) ∧
      bcMerkleRoot (front ++ (back ++ back)) buf (some fresh') =
        some (0, front ++ (back ++ back), buf ++ consumed') ∧
      consumed[0]? = some root ∧ consumed'[0]? = some root := by
  have filled (others : List BcHash32) : front ++ others ≠ [] :=
    List.append_ne_nil_of_left_ne_nil (List.length_pos_iff.mp nonempty) others
  obtain ⟨root, consumed, isRoot, run, -, first⟩ :=
    bcMerkleRoot_run (front ++ back) buf fresh (filled back)
  obtain ⟨root', consumed', isRoot', run', -, first'⟩ :=
    bcMerkleRoot_run (front ++ (back ++ back)) buf fresh' (filled (back ++ back))
  rw [reduce_doubled hashPair k size nonempty whole, isRoot, Option.some.injEq] at isRoot'
  exact ⟨root, consumed, consumed', run, run', first, isRoot' ▸ first'⟩

/-- The last two of six ids. -/
theorem bcMerkleRoot_doubled_six :
    let id (byte : UInt8) : BcHash32 := Vector.replicate 32 byte
    ∃ root consumed consumed',
      bcMerkleRoot [id 1, id 2, id 3, id 4, id 5, id 6] [] (some fun _ => id 0) =
        some (0, [id 1, id 2, id 3, id 4, id 5, id 6], consumed) ∧
      bcMerkleRoot [id 1, id 2, id 3, id 4, id 5, id 6, id 5, id 6] [] (some fun _ => id 0) =
        some (0, [id 1, id 2, id 3, id 4, id 5, id 6, id 5, id 6], consumed') ∧
      consumed[0]? = some root ∧ consumed'[0]? = some root := by
  intro id
  exact bcMerkleRoot_doubled 1 [id 1, id 2, id 3, id 4] [id 5, id 6] [] (fun _ => id 0)
    (fun _ => id 0) rfl (by decide)
    (by decide)

/-- The 64 bytes that are hashed for a pair of nodes. -/
def pairMessage (pair : BcHash32 × BcHash32) : List UInt8 := pair.1.toList ++ pair.2.toList

/-- In one and the same place of the trees over two lists stand different messages with
the same double hash. -/
def NodesCollide (txids txids' : List BcHash32) : Prop :=
  ∃ (level i : Nat) (pair pair' : BcHash32 × BcHash32),
    (pairs ((halve hashPair)^[level] txids))[i]? = some pair ∧
    (pairs ((halve hashPair)^[level] txids'))[i]? = some pair' ∧
      pairMessage pair ≠ pairMessage pair' ∧
    hash256 (pairMessage pair) = hash256 (pairMessage pair')

theorem pairMessage_injective {pair pair' : BcHash32 × BcHash32}
    (same : pairMessage pair = pairMessage pair') :
    pair = pair' := by
  obtain ⟨left, right⟩ := List.append_inj same (by simp)
  exact Prod.ext (Vector.toList_inj.mp left) (Vector.toList_inj.mp right)

theorem nodesCollide_of_clash {txids txids' : List BcHash32} (clash : Clash hashPair txids txids') :
    NodesCollide txids txids' := by
  obtain ⟨level, i, pair, pair', here, here', different, same⟩ := clash
  exact ⟨level, i, pair, pair', here, here', mt pairMessage_injective different, same⟩

/-- Among the lists with one number of ids the root binds the list, unless the double hash has a
collision in one place of their trees. -/
theorem bcMerkleRoot_binding (txids txids' buf buf' : List BcHash32) (fresh fresh' : Nat → BcHash32)
    (nonempty : txids ≠ []) (length : txids.length = txids'.length) :
    ∃ root root' consumed consumed',
      bcMerkleRoot txids buf (some fresh) = some (0, txids, buf ++ consumed) ∧
      bcMerkleRoot txids' buf' (some fresh') = some (0, txids', buf' ++ consumed') ∧
      consumed[0]? = some root ∧ consumed'[0]? = some root' ∧
      (root = root' → txids = txids' ∨ NodesCollide txids txids') := by
  have nonempty' : txids' ≠ [] := by
    rw [← List.length_pos_iff, ← length]
    exact List.length_pos_iff.mpr nonempty
  obtain ⟨root, consumed, isRoot, run, -, first⟩ := bcMerkleRoot_run txids buf fresh nonempty
  obtain ⟨root', consumed', isRoot', run', -, first'⟩ :=
    bcMerkleRoot_run txids' buf' fresh' nonempty'
  refine ⟨root, root', consumed, consumed', run, run', first, first', fun same => ?_⟩
  have reduced : reduce hashPair txids = reduce hashPair txids' := by rw [isRoot, isRoot', same]
  exact (eq_of_reduce hashPair length reduced).imp_right nodesCollide_of_clash

/-- Two ids in both orders. -/
theorem bcMerkleRoot_binding_two :
    let id (byte : UInt8) : BcHash32 := Vector.replicate 32 byte
    ∃ root root' consumed consumed',
      bcMerkleRoot [id 1, id 2] [] (some fun _ => id 0) = some (0, [id 1, id 2], consumed) ∧
      bcMerkleRoot [id 2, id 1] [] (some fun _ => id 0) = some (0, [id 2, id 1], consumed') ∧
      consumed[0]? = some root ∧ consumed'[0]? = some root' ∧
      (root = root' → [id 1, id 2] = [id 2, id 1] ∨ NodesCollide [id 1, id 2] [id 2, id 1]) := by
  intro id
  exact bcMerkleRoot_binding [id 1, id 2] [id 2, id 1] [] [] (fun _ => id 0) (fun _ => id 0)
    (List.cons_ne_nil _ _) rfl

end NuLab.Merkle
