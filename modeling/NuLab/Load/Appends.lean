import NuLab.Dca.Region
import NuLab.Load.Code

/-! # Loading into a buffer that is not empty

The file is read over what the buffer holds, and then as many bytes as it has become used
behind that.  So a loader appends a file to an empty buffer; otherwise the result is right
only if the file repeats what was there and memory happens to hold the rest.
-/

namespace NuLab.Load

open NuLab.Dca

/-- A loader that returns 0 has appended the file. -/
def Appends (before : Option Block) (file : FileContent) (run : Option Loaded) : Prop :=
  ∃ loaded, run = some loaded ∧
    (loaded.ec = 0 → dataBytes 16 loaded.buf = dataBytes 16 before ++ file.bytes)

/-- There is also a NUL behind the text, and it belongs to the capacity. -/
def AppendsText (before : Option Block) (file : FileContent) (run : Option Loaded) : Prop :=
  ∃ loaded, run = some loaded ∧
    (loaded.ec = 0 → dataBytes 16 loaded.buf = dataBytes 16 before ++ file.bytes ∧
      (dataBytes 16 before).length + file.bytes.length < (nuDcaCapacityInBytes loaded.buf).toNat ∧
      (capacityBytes loaded.buf)[(dataBytes 16 before).length + file.bytes.length]? = some 0)

/-- The file begins like the buffer followed by the file, and `behind`, which memory holds behind
the place of the file, goes on like it. -/
def Coincides (old file behind : List UInt8) : Prop :=
  file <+: old ++ file ∧ behind.take old.length = (old ++ file).drop file.length

/-- When `btcp_load_file` is right. -/
def FileLoads (buf : Option Block) (file : List UInt8) (reserveReply consumeReply : Option Grant) :
    Prop :=
  let old := dataBytes 16 buf
  let total := old.length + file.length
  ¬ HasRoom buf file.length reserveReply ∨ file = [] ∨ old = [] ∨
    (HasRoom buf total consumeReply ∧ Coincides old file
      ((grown (file ++ (capacityBytes buf).drop file.length) total consumeReply).drop file.length))

/-- When `btcp_load_text_file` is right. -/
def TextFileLoads (errno : Int) (buf : Option Block) (file : List UInt8)
    (reserveReply : Option Grant) : Prop :=
  let old := dataBytes 16 buf
  ¬ HasRoom buf (file.length + 1) reserveReply ∨
    (file = [] ∧ (errno ≠ 0 ∨ (grown (capacityBytes buf) 1 reserveReply)[old.length]? = some 0)) ∨
    (file ≠ [] ∧ (old = [] ∨ (old.length + file.length < (capacityBytes buf).length ∧
      Coincides old file ((capacityBytes buf).drop file.length))))

/-! ## Writing to the array -/

/-- `count` bytes at the place `k` of the elements. -/
theorem storeBytes_region {p : Block} {used : UInt64} {body : List UInt8}
    (region : Region (some p) used body) (bytes : List UInt8) (k : Nat)
    (inside : k + bytes.length ≤ body.length) :
    ∃ q, storeBytes (some p) (some (p.addr + 16 + k)) bytes = some q ∧
      Region (some q) used (body.take k ++ (bytes ++ body.drop (k + bytes.length))) := by
  cases region with
  | @block p base body intact =>
    have size := baseBytes_length base
    have offset : p.addr + 16 + k - p.addr = (baseBytes base).length + k := by omega
    have full := intact.full
    have room : p.addr ≤ p.addr + 16 + k ∧ (baseBytes base).length + k + bytes.length ≤
        p.bytes.length := by
      rw [intact.length]
      omega
    refine ⟨⟨p.addr, baseBytes base ++ (body.take k ++ (bytes ++ body.drop (k + bytes.length)))⟩,
      ?_, Region.block ⟨rfl, ?_, intact.ordered⟩⟩
    · rw [storeBytes]
      simp only [offset, if_pos room]
      rw [intact.bytes, List.take_length_add_append, Nat.add_assoc, List.drop_length_add_append,
        List.append_assoc]
    · simp only [List.length_append, List.length_take, List.length_drop]
      omega

theorem storeBytes_outside {p : Block} {used : UInt64} {body : List UInt8}
    (region : Region (some p) used body) (bytes : List UInt8) (k : Nat)
    (outside : body.length < k + bytes.length) :
    storeBytes (some p) (some (p.addr + 16 + k)) bytes = none := by
  cases region with
  | @block p base body intact =>
    have length := congrArg List.length intact.bytes
    rw [List.length_append, baseBytes_length] at length
    have noRoom :
        ¬ (p.addr ≤ p.addr + 16 + k ∧ p.addr + 16 + k - p.addr + bytes.length ≤
          p.bytes.length) := by omega
    simp only [storeBytes, if_neg noRoom]

/-! ## Reserving and reading -/

section

variable {buf : Option Block} {used : UInt64} {body : List UInt8} {reply : Option Grant}

theorem reserve_fails (region : Region buf used body) {count : Nat} (small : count ≤ 2 ^ 63)
    (noRoom : ¬ HasRoom buf count reply) :
    ∃ calls, nuMboxDcaReserve buf bytesOffset 1 (UInt64.ofNat count) reply =
      some ⟨none, buf, calls⟩ := by
  have size : (UInt64.ofNat count).toNat = count :=
    UInt64.toNat_ofNat_of_lt' (by simp only [UInt64.size]; omega)
  obtain ⟨grows, unserved⟩ := Classical.not_imp.mp noRoom
  cases reply with
  | none =>
    rw [bytesOffset, mboxReserve_bytes]
    exact reserve_refused region _ (by rw [size]; exact grows)
  | some grant =>
    have fits : 16 + count ≤ SIZE_MAX := by
      simp only [SIZE_MAX]
      omega
    exact absurd ⟨rfl, fits⟩ unserved

/-- The file replaces the first bytes of what has been reserved. -/
theorem reserve_reads (region : Region buf used body) {count : Nat} (small : count ≤ 2 ^ 63)
    (room : HasRoom buf count reply) {file : List UInt8} (fits : file.length ≤ count) :
    ∃ out q, nuMboxDcaReserve buf bytesOffset 1 (UInt64.ofNat count) reply = some out ∧
      out.ret.isSome = true ∧
      storeBytes out.pp (nuDcaData out.pp bytesOffset) file = some q ∧
      Region (some q) used (file ++ (grown body count reply).drop file.length) := by
  have size : (UInt64.ofNat count).toNat = count :=
    UInt64.toNat_ofNat_of_lt' (by simp only [UInt64.size]; omega)
  obtain ⟨out, p, base, run, reserved⟩ :=
    reserve_room region (UInt64.ofNat count) (by rw [size]; exact room)
  rw [size] at reserved
  obtain rfl : base.blen = used := reserved.sameSize.trans region.size
  have length := grown_length region room
  obtain ⟨q, stored, after⟩ := storeBytes_region (Region.block reserved.intact) file 0 (by omega)
  refine ⟨out, q, ?_, ?_, ?_, ?_⟩
  · rw [bytesOffset, mboxReserve_bytes, run]
  · rw [reserved.ret]
    rfl
  · rw [reserved.pp]
    exact stored
  · rw [List.take_zero, List.nil_append, Nat.zero_add] at after
    exact after

/-! ## `btcp_load_file` -/

theorem append_eq_iff (front behind whole : List UInt8) :
    front ++ behind = whole ↔ front <+: whole ∧ behind = whole.drop front.length := by
  rw [List.prefix_iff_eq_append]
  constructor
  · rintro rfl
    simp
  · rintro ⟨same, rfl⟩
    exact same

/-- The bytes that are used in the end: the file, and then what memory held. -/
theorem coincides_iff (old : List UInt8) {file region : List UInt8} (reads : file <+: region) :
    region.take (old.length + file.length) = old ++ file ↔
      Coincides old file (region.drop file.length) := by
  obtain ⟨behind, rfl⟩ := reads
  rw [List.drop_left, Nat.add_comm, List.take_length_add_append, append_eq_iff, Coincides]

theorem coincides_empty (file behind : List UInt8) : Coincides [] file behind := by
  simp [Coincides]

theorem ofNat_size (file : FileContent) :
    (UInt64.ofNat file.bytes.length).toNat = file.bytes.length := by
  have := file.size
  exact UInt64.toNat_ofNat_of_lt' (by simp only [UInt64.size]; omega)

theorem consume_bytes (pp : Option Block) (nb : UInt64) (reply : Option Grant) :
    nuMboxDcaConsume pp bytesOffset 1 nb reply = nuDcaConsumeBytes pp 16 nb reply :=
  mboxConsume_bytes pp nb reply

/-- Lengthening the array by the size of the file. -/
theorem consume_file {read : Block} {region : List UInt8} (file : FileContent)
    (after : Region (some read) used region)
    (room : HasRoom (some read) (used.toNat + file.bytes.length) reply) :
    ∃ out p final,
      nuDcaConsumeBytes (some read) 16 (UInt64.ofNat file.bytes.length) reply = some out ∧
      out.ret = some (p.addr + 16 + used.toNat) ∧ out.pp = some p ∧
      Region (some p) final (grown region (used.toNat + file.bytes.length) reply) ∧
      final.toNat = used.toNat + file.bytes.length := by
  have size := ofNat_size file
  have consumed := consume_room after (UInt64.ofNat file.bytes.length) (by rw [size]; exact room)
  rwa [size] at consumed

theorem consume_file_noRoom {read : Block} {region : List UInt8} (file : FileContent)
    (after : Region (some read) used region)
    (noRoom : ¬ HasRoom (some read) (used.toNat + file.bytes.length) reply) :
    nuDcaConsumeBytes (some read) 16 (UInt64.ofNat file.bytes.length) reply = none ∨
      ∃ calls, nuDcaConsumeBytes (some read) 16 (UInt64.ofNat file.bytes.length) reply =
        some ⟨none, some read, calls⟩ :=
  consume_noRoom after (UInt64.ofNat file.bytes.length) (by rw [ofNat_size file]; exact noRoom)

theorem btcpLoadFile_refused (errno : Int) (file : FileContent) (region : Region buf used body)
    (consumeReply : Option Grant) (noRoom : ¬ HasRoom buf file.bytes.length reply) :
    btcpLoadFile errno (some file) buf reply consumeReply = some ⟨ENOMEM, buf⟩ := by
  obtain ⟨calls, refused⟩ := reserve_fails region (Nat.le_of_lt file.size) noRoom
  simp only [btcpLoadFile, nuBufferReserve, refused, Option.bind_eq_bind, Option.bind_some,
    Option.isSome_none, Bool.false_eq_true, if_false]

/-- The end of `btcp_load_file`: `count` bytes have been read. -/
def lengthen (read : Block) (count : Nat) (reply : Option Grant) : Option Loaded :=
  (nuDcaConsumeBytes (some read) 16 (UInt64.ofNat count) reply).bind fun consumed =>
    some ⟨0, consumed.pp⟩

/-- What is left once the file has been read. -/
theorem btcpLoadFile_read (errno : Int) (file : FileContent) (region : Region buf used body)
    (consumeReply : Option Grant) (room : HasRoom buf file.bytes.length reply) :
    ∃ read, Region (some read) used (file.bytes ++ body.drop file.bytes.length) ∧
      btcpLoadFile errno (some file) buf reply consumeReply =
        if file.bytes.length = 0 then some ⟨errno, some read⟩
        else lengthen read file.bytes.length consumeReply := by
  obtain ⟨out, read, reserve, granted, stored, after⟩ :=
    reserve_reads region (Nat.le_of_lt file.size) room (Nat.le_refl _)
  rw [grown_drop region room (Nat.le_refl _)] at after
  refine ⟨read, after, ?_⟩
  simp only [btcpLoadFile, nuBufferReserve, nuBufferBegin, nuBufferConsume, reserve, granted,
    stored, consume_bytes, lengthen, Option.bind_eq_bind, Option.bind_some, if_true]

/-- The file stands in front of the array. -/
theorem consumed_appends {read : Block} {region : List UInt8} (file : FileContent)
    (nonempty : file.bytes ≠ []) (after : Region (some read) used (file.bytes ++ region))
    (old : (dataBytes 16 buf).length = used.toNat) :
    Appends buf file (lengthen read file.bytes.length reply) ↔
      HasRoom (some read) (used.toNat + file.bytes.length) reply ∧
        Coincides (dataBytes 16 buf) file.bytes
          ((grown (file.bytes ++ region) (used.toNat + file.bytes.length) reply).drop
            file.bytes.length) := by
  rw [lengthen]
  by_cases room : HasRoom (some read) (used.toNat + file.bytes.length) reply
  · obtain ⟨out, p, final, run, -, pp, whole, length⟩ := consume_file file after room
    have reads : file.bytes <+: grown (file.bytes ++ region)
        (used.toNat + file.bytes.length) reply := by
      rw [grown, List.append_assoc]
      exact List.prefix_append _ _
    have data := whole.dataBytes
    rw [length] at data
    rw [and_iff_right room, ← coincides_iff _ reads, old, ← data, run, Option.bind_some, pp]
    constructor
    · rintro ⟨loaded, same, right⟩
      obtain rfl := Option.some.inj same
      exact right rfl
    · intro right
      exact ⟨_, rfl, fun _ => right⟩
  · rw [iff_false_right (fun both => room both.1)]
    -- nothing was appended, but 0 is returned
    rintro ⟨loaded, run, right⟩
    rcases consume_file_noRoom file after room with fault | ⟨calls, refused⟩
    · rw [fault] at run
      cases run
    · rw [refused] at run
      obtain rfl := Option.some.inj run
      have lengths := congrArg List.length (right rfl)
      rw [List.length_append, old, after.used_length] at lengths
      exact absurd (List.length_pos_iff.mpr nonempty) (by omega)

theorem room_after_read {read : Block} (file : FileContent) (region : Region buf used body)
    (after : Region (some read) used (file.bytes ++ body.drop file.bytes.length))
    (positive : 0 < used.toNat) :
    HasRoom (some read) (used.toNat + file.bytes.length) reply ↔
      HasRoom buf (used.toNat + file.bytes.length) reply := by
  have allocated : buf ≠ none := by
    rintro rfl
    cases region
    exact absurd positive (Nat.lt_irrefl 0)
  have same : Grows (some read) (used.toNat + file.bytes.length) ↔
      Grows buf (used.toNat + file.bytes.length) := by
    rw [region.grows_iff, after.grows_iff, List.length_append, List.length_drop]
    simp only [reduceCtorEq, allocated, false_or]
    omega
  rw [HasRoom, HasRoom, same]

theorem fileLoads_iff (errno : Int) (file : FileContent) (region : Region buf used body)
    (reserveReply consumeReply : Option Grant) :
    Appends buf file (btcpLoadFile errno (some file) buf reserveReply consumeReply) ↔
      FileLoads buf file.bytes reserveReply consumeReply := by
  have old := region.used_length
  by_cases room : HasRoom buf file.bytes.length reserveReply
  · obtain ⟨read, after, run⟩ := btcpLoadFile_read errno file region consumeReply room
    rw [run]
    by_cases empty : file.bytes = []
    · -- nothing is read, and nothing has changed
      have same : dataBytes 16 (some read) = dataBytes 16 buf ++ file.bytes := by
        rw [after.dataBytes, region.dataBytes, empty, List.append_nil]
        rfl
      rw [if_pos (List.length_eq_zero_iff.mpr empty)]
      exact iff_of_true ⟨_, rfl, fun _ => same⟩ (Or.inr (Or.inl empty))
    · rw [if_neg (mt List.length_eq_zero_iff.mp empty),
        consumed_appends file empty after old, FileLoads]
      simp only [old, region.capacityBytes, not_true, room, empty, false_or]
      cases Nat.eq_zero_or_pos used.toNat with
      | inl unused =>
        have nothing : dataBytes 16 buf = [] := List.length_eq_zero_iff.mp (old.trans unused)
        have enough : HasRoom (some read) (used.toNat + file.bytes.length) consumeReply := by
          intro grows
          rw [after.grows_iff, List.length_append, unused] at grows
          exact absurd (grows.resolve_left (by simp)) (by omega)
        rw [nothing]
        exact iff_of_true ⟨enough, coincides_empty _ _⟩ (Or.inl rfl)
      | inr positive =>
        have something := List.length_pos_iff.mp (positive.trans_eq old.symm)
        rw [room_after_read file region after positive, or_iff_right something]
  · rw [btcpLoadFile_refused errno file region consumeReply room]
    exact iff_of_true ⟨_, rfl, fun zero => (by cases zero)⟩ (Or.inl room)

/-! ## `btcp_load_text_file` -/

theorem btcpLoadTextFile_refused (errno : Int) (file : FileContent) (region : Region buf used body)
    (consumeReply : Option Grant) (noRoom : ¬ HasRoom buf (file.bytes.length + 1) reply) :
    btcpLoadTextFile errno (some file) buf reply consumeReply = some ⟨ENOMEM, buf⟩ := by
  obtain ⟨calls, refused⟩ := reserve_fails region file.size noRoom
  simp only [btcpLoadTextFile, nuStringReserve, refused, Option.bind_eq_bind, Option.bind_some,
    Option.isSome_none, Bool.false_eq_true, if_false]

/-- The end of `btcp_load_text_file`. -/
def lengthenText (read : Block) (count : Nat) (reply : Option Grant) : Option Loaded :=
  (nuDcaConsumeBytes (some read) 16 (UInt64.ofNat count) reply).bind fun consumed =>
    (storeBytes consumed.pp (consumed.ret.map (· + count)) [0]).bind fun terminated =>
      some ⟨0, some terminated⟩

theorem btcpLoadTextFile_read (errno : Int) (file : FileContent) (region : Region buf used body)
    (consumeReply : Option Grant) (room : HasRoom buf (file.bytes.length + 1) reply) :
    ∃ read, Region (some read) used
        (file.bytes ++ (grown body (file.bytes.length + 1) reply).drop file.bytes.length) ∧
      btcpLoadTextFile errno (some file) buf reply consumeReply =
        if file.bytes.length = 0 then some ⟨errno, some read⟩
        else lengthenText read file.bytes.length consumeReply := by
  obtain ⟨out, read, reserve, granted, stored, after⟩ :=
    reserve_reads region file.size room (Nat.le_succ _)
  refine ⟨read, after, ?_⟩
  simp only [btcpLoadTextFile, nuStringReserve, nuStringBegin, nuStringConsume, reserve, granted,
    stored, consume_bytes, lengthenText, Option.bind_eq_bind, Option.bind_some, if_true]

/-- The NUL goes behind the capacity, or through NULL. -/
theorem lengthenText_outside {read : Block} {region : List UInt8} (file : FileContent)
    (after : Region (some read) used region)
    (outside : region.length ≤ used.toNat + file.bytes.length) :
    lengthenText read file.bytes.length reply = none := by
  rw [lengthenText]
  by_cases room : HasRoom (some read) (used.toNat + file.bytes.length) reply
  · obtain ⟨out, p, final, run, ret, pp, whole, -⟩ := consume_file file after room
    -- the capacity is now just what is used
    have exactly := grown_length after room
    have beyond := storeBytes_outside whole [0] (used.toNat + file.bytes.length)
      (by rw [exactly, Nat.max_eq_right outside]; exact Nat.lt_succ_self _)
    rw [run, Option.bind_some, pp, ret, Option.map_some, Nat.add_assoc (p.addr + 16), beyond]
    rfl
  · rcases consume_file_noRoom file after room with fault | ⟨calls, refused⟩
    · rw [fault]
      rfl
    · rw [refused]
      rfl

theorem lengthenText_inside {read : Block} {region : List UInt8} (file : FileContent)
    (after : Region (some read) used region) (consumeReply : Option Grant)
    (inside : used.toNat + file.bytes.length < region.length) :
    ∃ q final, lengthenText read file.bytes.length consumeReply = some ⟨0, some q⟩ ∧
      Region (some q) final (region.take (used.toNat + file.bytes.length) ++
        ([0] ++ region.drop (used.toNat + file.bytes.length + 1))) ∧
      final.toNat = used.toNat + file.bytes.length := by
  have room : HasRoom (some read) (used.toNat + file.bytes.length) consumeReply := by
    intro grows
    rw [after.grows_iff] at grows
    exact absurd (grows.resolve_left (by simp)) (by omega)
  obtain ⟨out, p, final, run, ret, pp, whole, length⟩ := consume_file file after room
  rw [grown_same (Nat.le_of_lt inside)] at whole
  obtain ⟨q, stored, terminated⟩ :=
    storeBytes_region whole [0] (used.toNat + file.bytes.length) inside
  refine ⟨q, final, ?_, terminated, length⟩
  rw [lengthenText, run, Option.bind_some, pp, ret, Option.map_some, Nat.add_assoc (p.addr + 16),
    stored, Option.bind_some]

/-- An empty file: the byte behind the buffer is what it was. -/
theorem appendsText_empty (errno : Int) {read : Block} {region : List UInt8} (file : FileContent)
    (after : Region (some read) used region) (empty : file.bytes = [])
    (old : (dataBytes 16 buf).length = used.toNat)
    (same : dataBytes 16 (some read) = dataBytes 16 buf) :
    AppendsText buf file (some ⟨errno, some read⟩) ↔ errno ≠ 0 ∨ region[used.toNat]? = some 0 := by
  simp only [AppendsText, Option.some.injEq, exists_eq_left', empty, List.append_nil,
    List.length_nil, Nat.add_zero, old, after.capacityBytes, after.length, same, true_and]
  constructor
  · intro right
    by_cases zero : errno = 0
    · exact Or.inr (right zero).2
    · exact Or.inl zero
  · rintro (nonzero | terminated) zero
    · exact absurd zero nonzero
    · exact ⟨(List.getElem?_eq_some_iff.mp terminated).1, terminated⟩

/-- With room for the NUL behind the buffer and the file. -/
theorem appendsText_inside {read : Block} {behind : List UInt8} (file : FileContent)
    (after : Region (some read) used (file.bytes ++ behind))
    (old : (dataBytes 16 buf).length = used.toNat)
    (inside : used.toNat + file.bytes.length < (file.bytes ++ behind).length) :
    AppendsText buf file (lengthenText read file.bytes.length reply) ↔
      Coincides (dataBytes 16 buf) file.bytes behind := by
  obtain ⟨q, final, run, whole, length⟩ := lengthenText_inside file after reply inside
  have front : ((file.bytes ++ behind).take (used.toNat + file.bytes.length)).length =
      used.toNat + file.bytes.length := by
    rw [List.length_take, Nat.min_eq_left (Nat.le_of_lt inside)]
  have data : dataBytes 16 (some q) = (file.bytes ++ behind).take
      (used.toNat + file.bytes.length) := by
    rw [whole.dataBytes, length, List.take_left' front]
  have terminated : (capacityBytes (some q))[used.toNat + file.bytes.length]? = some 0 := by
    rw [whole.capacityBytes, List.getElem?_append_right (Nat.le_of_eq front), front, Nat.sub_self]
    rfl
  have capacity := whole.length
  have bound := (List.getElem?_eq_some_iff.mp terminated).1
  rw [whole.capacityBytes, ← capacity] at bound
  have same := coincides_iff (dataBytes 16 buf) (List.prefix_append file.bytes behind)
  rw [List.drop_left, old] at same
  rw [← same, ← data, run]
  simp only [AppendsText, Option.some.injEq, exists_eq_left', old, bound, terminated,
    and_true, true_implies]

theorem textFileLoads_iff (errno : Int) (file : FileContent) (region : Region buf used body)
    (reserveReply consumeReply : Option Grant) :
    AppendsText buf file (btcpLoadTextFile errno (some file) buf reserveReply consumeReply) ↔
      TextFileLoads errno buf file.bytes reserveReply := by
  have old := region.used_length
  by_cases room : HasRoom buf (file.bytes.length + 1) reserveReply
  · obtain ⟨read, after, run⟩ := btcpLoadTextFile_read errno file region consumeReply room
    have length := grown_length region room
    rw [run, TextFileLoads]
    simp only [old, region.capacityBytes, not_true, room, false_or]
    by_cases empty : file.bytes = []
    · rw [empty, List.length_nil, List.nil_append, List.drop_zero] at after
      have same : dataBytes 16 (some read) = dataBytes 16 buf := by
        rw [after.dataBytes, grown_take region, region.dataBytes]
      rw [if_pos (List.length_eq_zero_iff.mpr empty),
        appendsText_empty errno file after empty old same]
      simp [empty]
    · rw [if_neg (mt List.length_eq_zero_iff.mp empty)]
      simp only [empty, false_and, false_or, ne_eq, not_false_eq_true, true_and]
      have whole :
        (file.bytes ++ (grown body (file.bytes.length + 1) reserveReply).drop
          file.bytes.length).length =
          max body.length (file.bytes.length + 1) := by
        rw [List.length_append, List.length_drop, length]
        omega
      by_cases inside : used.toNat + file.bytes.length < max body.length (file.bytes.length + 1)
      · rw [appendsText_inside file after old (inside.trans_eq whole.symm)]
        cases Nat.eq_zero_or_pos used.toNat with
        | inl unused =>
          rw [List.length_eq_zero_iff.mp (old.trans unused)]
          exact iff_of_true (coincides_empty _ _) (Or.inl rfl)
        | inr positive =>
          have something := List.length_pos_iff.mp (positive.trans_eq old.symm)
          -- so that the first reservation added nothing
          rw [grown_same (by omega), or_iff_right something, and_iff_right (by omega)]
      · rw [lengthenText_outside file after (whole.trans_le (Nat.le_of_not_lt inside))]
        have something : dataBytes 16 buf ≠ [] := List.length_pos_iff.mp (by omega)
        refine iff_of_false (fun ⟨_, fault, _⟩ => (by cases fault)) ?_
        rintro (nothing | ⟨small, -⟩)
        · exact something nothing
        · omega
  · rw [btcpLoadTextFile_refused errno file region consumeReply room]
    exact iff_of_true ⟨_, rfl, fun zero => (by cases zero)⟩ (Or.inl room)

end

/-! ## Both loaders -/

theorem btcpLoad_iff (errno : Int) (file : FileContent) (buf : Option Block)
    (reserveReply consumeReply : Option Grant) (intact : IntactArray 16 buf) :
    (Appends buf file (btcpLoadFile errno (some file) buf reserveReply consumeReply) ↔
      FileLoads buf file.bytes reserveReply consumeReply) ∧
    (AppendsText buf file (btcpLoadTextFile errno (some file) buf reserveReply consumeReply) ↔
      TextFileLoads errno buf file.bytes reserveReply) := by
  obtain ⟨used, body, region⟩ := region_of_intact intact
  exact ⟨fileLoads_iff errno file region reserveReply consumeReply,
    textFileLoads_iff errno file region reserveReply consumeReply⟩

/-- A buffer of three bytes that holds `A`. -/
def holdsA : Block := ⟨64, baseBytes ⟨3, 1⟩ ++ [65, 7, 7]⟩

theorem holdsA_intact : IntactArray 16 (some holdsA) := Intact.array ⟨rfl, by decide, by decide⟩

def fileB : FileContent := ⟨[66], by decide⟩

def emptyFile : FileContent := ⟨[], by decide⟩

theorem btcpLoad_iff_holdsA :
    IntactArray 16 (some holdsA) ∧
    (Appends (some holdsA) fileB (btcpLoadFile 0 (some fileB) (some holdsA) none none) ↔
      FileLoads (some holdsA) [66] none none) ∧
    (AppendsText (some holdsA) fileB (btcpLoadTextFile 0 (some fileB) (some holdsA) none none) ↔
      TextFileLoads 0 (some holdsA) [66] none) :=
  ⟨holdsA_intact, btcpLoad_iff 0 fileB (some holdsA) none none holdsA_intact⟩

/-- `B` replaces `A`, and what stood behind it becomes used; without a byte to
read, no NUL is written. -/
theorem btcpLoad_overwrites :
    IntactArray 16 (some holdsA) ∧ dataBytes 16 (some holdsA) = [65] ∧
    ¬ Appends (some holdsA) fileB (btcpLoadFile 0 (some fileB) (some holdsA) none none) ∧
    ¬ AppendsText (some holdsA) fileB (btcpLoadTextFile 0 (some fileB) (some holdsA) none none) ∧
    ¬ AppendsText (some holdsA) emptyFile
      (btcpLoadTextFile 0 (some emptyFile) (some holdsA) none none) := by
  have binary : btcpLoadFile 0 (some fileB) (some holdsA) none none =
      some ⟨0, some ⟨64, baseBytes ⟨3, 2⟩ ++ [66, 7, 7]⟩⟩ := by decide
  have text : btcpLoadTextFile 0 (some fileB) (some holdsA) none none =
      some ⟨0, some ⟨64, baseBytes ⟨3, 2⟩ ++ [66, 7, 0]⟩⟩ := by decide
  have nothing : btcpLoadTextFile 0 (some emptyFile) (some holdsA) none none =
      some ⟨0, some holdsA⟩ := by decide
  refine ⟨holdsA_intact, by decide, ?_, ?_, ?_⟩
  · rw [binary]
    rintro ⟨_, ⟨⟩, right⟩
    exact absurd (right rfl) (by decide)
  · rw [text]
    rintro ⟨_, ⟨⟩, right⟩
    exact absurd (right rfl).1 (by decide)
  · rw [nothing]
    rintro ⟨_, ⟨⟩, right⟩
    exact absurd (right rfl).2.2 (by decide)

end NuLab.Load
