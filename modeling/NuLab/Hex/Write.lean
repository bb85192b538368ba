import Mathlib.Logic.Function.Iterate
import NuLab.Hex.Code
import NuLab.Lib.While

/-! # The hex writers: `bc_hex.c`

Memory behind a pointer is a function of the offset.  `i` and `j` have 32 bits, the sizes
64; a writer is `none` as long as its loop has not ended.
-/

namespace NuLab.Hex

open NuLab.CString NuLab.While

/-- `HexChars` -/
def hexChars : List UInt8 := text "0123456789abcdef"

/-- The locals of the loop and the memory behind `buf`. -/
structure WriteHexState where
  i : UInt32
  j : UInt32
  buf : Nat → UInt8

/-- The body of the loop and its step, which moves `j` by `advance`. -/
def writeHexRound (advance : UInt32 → UInt32) (bytes : Nat → UInt8) (s : WriteHexState) :
    WriteHexState :=
  let lo := (bytes s.j.toNat &&& 0xF0) >>> 4
  let hi := bytes s.j.toNat &&& 0x0F
  -- the doubled index is a `uint32_t`, too
  let buf := Function.update s.buf (s.i * 2 + 0).toNat (hexChars.getD lo.toNat 0)
  let buf := Function.update buf (s.i * 2 + 1).toNat (hexChars.getD hi.toNat 0)
  ⟨s.i + 1, advance s.j, buf⟩

def writeHexLoop (advance : UInt32 → UInt32) (bytes : Nat → UInt8) (datsz : UInt64) :
    Nat → WriteHexState → Option WriteHexState :=
  whileLoop (fun s => s.i.toUInt64 < datsz) (writeHexRound advance bytes)

/-- What the two writers have in common: the returned count and the memory behind `buf`. -/
def writeHex (first : UInt32) (advance : UInt32 → UInt32) (buf : Nat → UInt8) (bufsz : UInt64)
    (dat : Nat → UInt8) (datsz : UInt64) (fuel : Nat) : Option (UInt64 × (Nat → UInt8)) :=
  -- the sum wraps from a size of `2 ^ 63` on
  if bufsz < datsz * 2 + 1 then some (0, buf)
  else if datsz < 1 then some (0, Function.update buf 0 0)
  else
    (writeHexLoop advance dat datsz fuel ⟨0, first, buf⟩).map fun s =>
      ((s.i * 2).toUInt64, Function.update s.buf (s.i * 2).toNat 0)

def bcWriteHexBackward (buf : Nat → UInt8) (bufsz : UInt64) (dat : Nat → UInt8) (datsz : UInt64)
    (fuel : Nat) : Option (UInt64 × (Nat → UInt8)) :=
  writeHex (datsz - 1).toUInt32 (· - 1) buf bufsz dat datsz fuel

def bcWriteHexForward (buf : Nat → UInt8) (bufsz : UInt64) (dat : Nat → UInt8) (datsz : UInt64)
    (fuel : Nat) : Option (UInt64 × (Nat → UInt8)) :=
  writeHex 0 (· + 1) buf bufsz dat datsz fuel

/-! ## Digits -/

/-- The character of a lower-case digit. -/
def digitChar (value : Nat) : UInt8 := (Nat.digitChar value).toUInt8

def byteDigits (byte : UInt8) : List UInt8 :=
  [digitChar (byte.toNat / 16), digitChar (byte.toNat % 16)]

/-- Two digits a byte, the upper one first. -/
def lowerHex (bytes : List UInt8) : List UInt8 := bytes.flatMap byteDigits

theorem lowerHex_length (bytes : List UInt8) : (lowerHex bytes).length = 2 * bytes.length := by
  induction bytes with
  | nil => rfl
  | cons byte bytes inductionHypothesis =>
    rw [lowerHex, List.flatMap_cons, List.length_append, List.length_cons,
      Nat.mul_succ, Nat.add_comm]
    exact congrArg (· + 2) inductionHypothesis

theorem lowerHex_append (front back : List UInt8) :
    lowerHex (front ++ back) = lowerHex front ++ lowerHex back :=
  List.flatMap_append

theorem hexChars_digit {value : Nat} (small : value < 16) :
    hexChars.getD value 0 = digitChar value := by
  revert value
  decide

theorem lowNibble_toNat (byte : UInt8) : (byte &&& 0x0F).toNat = byte.toNat % 16 := by
  simpa using Nat.and_two_pow_sub_one_eq_mod byte.toNat 4

theorem highNibble_toNat (byte : UInt8) : ((byte &&& 0xF0) >>> 4).toNat = byte.toNat / 16 := by
  have small := byte.toNat_lt
  calc ((byte &&& 0xF0) >>> 4).toNat
    _ = (byte.toNat &&& 240) >>> 4 := by simp [UInt8.toNat_shiftRight]
    _ = byte.toNat >>> 4 &&& 2 ^ 4 - 1 := Nat.shiftRight_and_distrib
    _ = byte.toNat / 16 % 16 := by rw [Nat.and_two_pow_sub_one_eq_mod, Nat.shiftRight_eq_div_pow]
    _ = byte.toNat / 16 := Nat.mod_eq_of_lt (by omega)

theorem hexChars_upper (byte : UInt8) :
    hexChars.getD ((byte &&& 0xF0) >>> 4).toNat 0 = digitChar (byte.toNat / 16) := by
  have small := byte.toNat_lt
  rw [highNibble_toNat, hexChars_digit (by omega)]

theorem hexChars_lower (byte : UInt8) :
    hexChars.getD (byte &&& 0x0F).toNat 0 = digitChar (byte.toNat % 16) := by
  rw [lowNibble_toNat, hexChars_digit (Nat.mod_lt _ (by decide))]

/-! ## One round -/

/-- The bytes that the first `count` rounds read. -/
def visited (first : UInt32) (advance : UInt32 → UInt32) (bytes : Nat → UInt8) (count : Nat) :
    List UInt8 :=
  (List.range count).map fun k => bytes (advance^[k] first).toNat

/-- After `done` rounds the digits of the bytes visited so far stand in front, and nothing
behind them has changed. -/
structure Written (first : UInt32) (advance : UInt32 → UInt32) (bytes : Nat → UInt8)
    (buf : Nat → UInt8) (done : Nat) (s : WriteHexState) : Prop where
  i : s.i.toNat = done
  j : s.j = advance^[done] first
  digits : (List.range (2 * done)).map s.buf = lowerHex (visited first advance bytes done)
  kept : ∀ k, 2 * done ≤ k → s.buf k = buf k

theorem map_update_outside (buf : Nat → UInt8) {count k : Nat} (outside : count ≤ k)
    (value : UInt8) :
    (List.range count).map (Function.update buf k value) = (List.range count).map buf := by
  apply List.map_congr_left
  intro i member
  have before := List.mem_range.mp member
  exact Function.update_of_ne (Nat.ne_of_lt (Nat.lt_of_lt_of_le before outside)) value buf

theorem double_toNat {i : UInt32} (small : i.toNat < 2 ^ 31) : (i * 2).toNat = 2 * i.toNat := by
  rw [UInt32.toNat_mul]
  simp only [UInt32.reduceToNat]
  omega

variable {first : UInt32} {advance : UInt32 → UInt32} {bytes buf : Nat → UInt8}

theorem written_start : Written first advance bytes buf 0 ⟨0, first, buf⟩ :=
  ⟨rfl, rfl, rfl, fun _ _ => rfl⟩

theorem Written.round {done : Nat} {s : WriteHexState}
    (written : Written first advance bytes buf done s) (small : done < 2 ^ 31) :
    Written first advance bytes buf (done + 1) (writeHexRound advance bytes s) := by
  have double := double_toNat (written.i ▸ small)
  rw [written.i] at double
  have even : (s.i * 2 + 0).toNat = 2 * done := by rw [UInt32.add_zero, double]
  have odd : (s.i * 2 + 1).toNat = 2 * done + 1 := by
    rw [UInt32.toNat_add, double]
    simp only [UInt32.reduceToNat]
    omega
  refine ⟨?_, ?_, ?_, ?_⟩
  · show (s.i + 1).toNat = done + 1
    rw [UInt32.toNat_add, written.i]
    simp only [UInt32.reduceToNat]
    omega
  · show advance s.j = advance^[done + 1] first
    rw [written.j, Function.iterate_succ_apply']
  · -- two characters more, which are the digits of the byte at `j`
    simp only [writeHexRound, even, odd, hexChars_upper, hexChars_lower, Nat.mul_succ,
      List.range_succ, List.map_append, visited, lowerHex_append]
    rw [map_update_outside _ (by omega), map_update_outside _ (Nat.le_refl _), written.digits]
    simp [lowerHex, byteDigits, visited, written.j]
  · intro k behind
    simp only [writeHexRound, even, odd]
    rw [Function.update_of_ne (by omega), Function.update_of_ne (by omega)]
    exact written.kept k (by omega)

/-! ## The loop -/

theorem writeHexLoop_ends {datsz : UInt64} (small : datsz.toNat < 2 ^ 31) :
    ∃ s, Ends (fun fuel => writeHexLoop advance bytes datsz fuel ⟨0, first, buf⟩) s ∧
      Written first advance bytes buf datsz.toNat s := by
  have exit : ∀ s, (∃ done, done + 0 = datsz.toNat ∧ Written first advance bytes buf done s) →
      decide (s.i.toUInt64 < datsz) = false := by
    rintro s ⟨done, all, written⟩
    rw [decide_eq_false_iff_not, UInt64.lt_iff_toNat_lt, UInt32.toNat_toUInt64, written.i]
    omega
  have round : ∀ left s,
    (∃ done, done + (left + 1) = datsz.toNat ∧ Written first advance bytes buf done s) →
      decide (s.i.toUInt64 < datsz) = true ∧
        ∃ done, done + left = datsz.toNat ∧
          Written first advance bytes buf done (writeHexRound advance bytes s) := by
    rintro left s ⟨done, all, written⟩
    refine ⟨?_, done + 1, by omega, written.round (by omega)⟩
    rw [decide_eq_true_eq, UInt64.lt_iff_toNat_lt, UInt32.toNat_toUInt64, written.i]
    omega
  obtain ⟨s, ends, done, all, written⟩ := whileLoop_counted
    (fun left s => ∃ done, done + left = datsz.toNat ∧ Written first advance bytes buf done s)
      exit round
    ⟨0, Nat.zero_add datsz.toNat, written_start⟩
  rw [Nat.add_zero] at all
  exact ⟨s, ends, all ▸ written⟩

/-- No value of `i` reaches a size of more than 32 bits. -/
theorem writeHexLoop_endless {datsz : UInt64} (large : 2 ^ 32 ≤ datsz.toNat) (s : WriteHexState)
    (fuel : Nat) : writeHexLoop advance bytes datsz fuel s = none := by
  refine whileLoop_endless (fun _ => True) (fun s _ => ⟨?_, trivial⟩) trivial fuel
  have := s.i.toNat_lt
  rw [decide_eq_true_eq, UInt64.lt_iff_toNat_lt, UInt32.toNat_toUInt64]
  omega

/-! ## The writers -/

/-- The string of `size` bytes at a pointer. -/
def bytesAt (dat : Nat → UInt8) (size : UInt64) : List UInt8 := (List.range size.toNat).map dat

theorem bytesAt_length (dat : Nat → UInt8) (size : UInt64) :
    (bytesAt dat size).length = size.toNat := by
  rw [bytesAt, List.length_map, List.length_range]

/-- A writer for the digits of `string` ends; with too little room it does nothing, and otherwise it
writes the digits and a NUL, and nothing else. -/
def WritesHex (string : List UInt8) (buf : Nat → UInt8) (bufsz : UInt64)
    (writer : Nat → Option (UInt64 × (Nat → UInt8))) : Prop :=
  ∃ ret after, Ends writer (ret, after) ∧
    (bufsz.toNat < 2 * string.length + 1 → ret = 0 ∧ after = buf) ∧
    (2 * string.length + 1 ≤ bufsz.toNat → ret.toNat = 2 * string.length ∧
      (List.range (2 * string.length + 1)).map after = lowerHex string ++ [0] ∧
      ∀ k, 2 * string.length + 1 ≤ k → after k = buf k)

variable {dat : Nat → UInt8} {bufsz datsz : UInt64}

theorem needed_le : (datsz * 2 + 1).toNat ≤ 2 * datsz.toNat + 1 := by
  rw [UInt64.toNat_add, UInt64.toNat_mul]
  simp only [UInt64.reduceToNat]
  omega

/-- The test of the capacity, where it does not wrap. -/
theorem room_of_accepted (accepted : ¬ bufsz < datsz * 2 + 1) (small : datsz.toNat < 2 ^ 32) :
    2 * datsz.toNat + 1 ≤ bufsz.toNat := by
  have room := UInt64.le_iff_toNat_le.mp (UInt64.not_lt.mp accepted)
  rw [UInt64.toNat_add, UInt64.toNat_mul] at room
  simp only [UInt64.reduceToNat] at room
  omega

theorem not_lt_one (some : 0 < datsz.toNat) : ¬ datsz < 1 := by
  rw [UInt64.lt_iff_toNat_lt, Nat.not_lt]
  exact some

theorem writeHex_refused {string : List UInt8} (size : string.length = datsz.toNat)
    (refused : bufsz < datsz * 2 + 1) :
    WritesHex string buf bufsz (writeHex first advance buf bufsz dat datsz) := by
  have order := UInt64.lt_iff_toNat_lt.mp refused
  have needed : (datsz * 2 + 1).toNat ≤ 2 * datsz.toNat + 1 := needed_le
  refine ⟨0, buf, Ends.of_all fun fuel =>
    by rw [writeHex, if_pos refused], fun _ => ⟨rfl, rfl⟩, fun room => ?_⟩
  omega

theorem writeHex_empty (accepted : ¬ bufsz < datsz * 2 + 1) (empty : datsz.toNat = 0) :
    WritesHex [] buf bufsz (writeHex first advance buf bufsz dat datsz) := by
  obtain rfl : datsz = 0 := UInt64.toNat_inj.mp empty
  have room := UInt64.le_iff_toNat_le.mp (UInt64.not_lt.mp accepted)
  refine ⟨0, Function.update buf 0 0, Ends.of_all fun fuel =>
    by rw [writeHex, if_neg accepted]; rfl, ?_, ?_⟩
  · intro little
    exact absurd room (Nat.not_le_of_lt little)
  · refine fun _ => ⟨rfl, rfl, fun k behind => ?_⟩
    exact Function.update_of_ne (Nat.ne_of_gt behind) 0 buf

theorem writeHex_digits (accepted : ¬ bufsz < datsz * 2 + 1) (some : 0 < datsz.toNat)
    (small : datsz.toNat < 2 ^ 31) :
    WritesHex (visited first advance dat datsz.toNat) buf bufsz
      (writeHex first advance buf bufsz dat datsz) := by
  obtain ⟨s, ends, written⟩ :
      ∃ s, Ends (fun fuel => writeHexLoop advance dat datsz fuel ⟨0, first, buf⟩) s ∧
        Written first advance dat buf datsz.toNat s := writeHexLoop_ends small
  have nonempty := not_lt_one some
  have size : (visited first advance dat datsz.toNat).length = datsz.toNat := by simp [visited]
  have count : (s.i * 2).toNat = 2 * datsz.toNat := by
    rw [double_toNat (by rw [written.i]; exact small), written.i]
  have room := room_of_accepted accepted (Nat.lt_trans small (by decide))
  refine ⟨(s.i * 2).toUInt64, Function.update s.buf (s.i * 2).toNat 0, ?_, ?_, ?_⟩
  · have result := ends.map fun s : WriteHexState =>
      ((s.i * 2).toUInt64, Function.update s.buf (s.i * 2).toNat 0)
    obtain ⟨rounds, done⟩ := result
    exact ⟨rounds, fun fuel enough =>
      by rw [writeHex, if_neg accepted, if_neg nonempty]; exact done fuel enough⟩
  · intro little
    omega
  · intro _
    rw [size, UInt32.toNat_toUInt64, count]
    refine ⟨rfl, ?_, fun k behind => ?_⟩
    · rw [List.range_succ, List.map_append, map_update_outside _ (Nat.le_refl _), written.digits]
      simp
    · rw [Function.update_of_ne (Nat.ne_of_gt behind)]
      exact written.kept k (Nat.le_of_succ_le behind)

/-- From `2 ^ 31` bytes on the count does not fit into `i * 2`, and from `2 ^ 32` on
the loop does not end. -/
theorem writeHex_large {string : List UInt8} (size : string.length = datsz.toNat)
    (accepted : ¬ bufsz < datsz * 2 + 1) (large : 2 ^ 31 ≤ datsz.toNat) :
    ¬ WritesHex string buf bufsz (writeHex first advance buf bufsz dat datsz) := by
  rintro ⟨ret, after, ends, -, enough⟩
  obtain ⟨fuel, run⟩ := ends.some_run
  have nonempty : ¬ datsz < 1 := not_lt_one (by omega)
  rw [writeHex, if_neg accepted, if_neg nonempty] at run
  cases Nat.lt_or_ge datsz.toNat (2 ^ 32) with
  | inl below =>
    have room := room_of_accepted accepted below
    obtain ⟨count, -⟩ := enough (by omega)
    obtain ⟨s, -, done⟩ := Option.map_eq_some_iff.mp run
    obtain ⟨rfl, -⟩ := Prod.mk.inj done
    have := (s.i * 2).toNat_lt
    rw [UInt32.toNat_toUInt64] at count
    omega
  | inr endless =>
    rw [writeHexLoop_endless endless] at run
    cases run

theorem forward_toNat {k : Nat} (bound : k < 2 ^ 32) : ((· + 1)^[k] (0 : UInt32)).toNat = k := by
  induction k with
  | zero => rfl
  | succ k inductionHypothesis =>
    rw [Function.iterate_succ_apply', UInt32.toNat_add,
      inductionHypothesis (Nat.lt_of_succ_lt bound)]
    exact Nat.mod_eq_of_lt bound

theorem backward_toNat (first : UInt32) {k : Nat} (bound : k ≤ first.toNat) :
    ((· - 1)^[k] first).toNat = first.toNat - k := by
  induction k with
  | zero => rfl
  | succ k inductionHypothesis =>
    have previous := inductionHypothesis (Nat.le_of_succ_le bound)
    have positive : (1 : UInt32) ≤ (· - 1)^[k] first := by
      rw [UInt32.le_iff_toNat_le, previous]
      simp only [UInt32.reduceToNat]
      omega
    rw [Function.iterate_succ_apply', UInt32.toNat_sub_of_le _ _ positive, previous, Nat.sub_sub]
    rfl

theorem visited_forward (small : datsz.toNat < 2 ^ 31) :
    visited 0 (· + 1) dat datsz.toNat = bytesAt dat datsz := by
  apply List.map_congr_left
  intro k member
  have before := List.mem_range.mp member
  rw [forward_toNat (by omega)]

theorem visited_backward (some : 0 < datsz.toNat) (small : datsz.toNat < 2 ^ 31) :
    visited (datsz - 1).toUInt32 (· - 1) dat datsz.toNat = (bytesAt dat datsz).reverse := by
  have last : (datsz - 1).toUInt32.toNat = datsz.toNat - 1 := by
    have positive : (1 : UInt64) ≤ datsz := UInt64.le_iff_toNat_le.mpr some
    rw [UInt64.toNat_toUInt32, UInt64.toNat_sub_of_le _ _ positive]
    simp only [UInt64.reduceToNat]
    omega
  apply List.ext_getElem (by simp [visited, bytesAt])
  intro k inside _
  have before : k < datsz.toNat := by simpa [visited] using inside
  simp only [visited, bytesAt, List.getElem_map, List.getElem_range, List.getElem_reverse,
    List.length_map, List.length_range]
  rw [backward_toNat _ (by rw [last]; omega), last, Nat.sub_sub]

theorem bcWriteHex_digits (buf : Nat → UInt8) (bufsz : UInt64) (dat : Nat → UInt8) (datsz : UInt64)
    (accepted : ¬ bufsz < datsz * 2 + 1) (small : datsz.toNat < 2 ^ 31) :
    WritesHex (bytesAt dat datsz) buf bufsz (bcWriteHexForward buf bufsz dat datsz) ∧
      WritesHex (bytesAt dat datsz).reverse buf bufsz (bcWriteHexBackward buf bufsz dat datsz) := by
  cases Nat.eq_zero_or_pos datsz.toNat with
  | inl empty =>
    have nothing : bytesAt dat datsz = [] :=
      List.length_eq_zero_iff.mp ((bytesAt_length dat datsz).trans empty)
    rw [nothing]
    exact ⟨writeHex_empty accepted empty, writeHex_empty accepted empty⟩
  | inr some =>
    rw [← visited_backward some small, ← visited_forward small]
    exact ⟨writeHex_digits accepted some small, writeHex_digits accepted some small⟩

/-- Both writers are right exactly when there are less than `2 ^ 31` bytes or the test of the
capacity, which may wrap, turns the call down. -/
theorem bcWriteHex_iff (buf : Nat → UInt8) (bufsz : UInt64) (dat : Nat → UInt8) (datsz : UInt64) :
    (WritesHex (bytesAt dat datsz) buf bufsz (bcWriteHexForward buf bufsz dat datsz) ∧
      WritesHex (bytesAt dat datsz).reverse buf bufsz (bcWriteHexBackward buf bufsz dat datsz)) ↔
      datsz.toNat < 2 ^ 31 ∨ bufsz < datsz * 2 + 1 := by
  have size := bytesAt_length dat datsz
  have sizeReverse : (bytesAt dat datsz).reverse.length = datsz.toNat := by
    rw [List.length_reverse, size]
  by_cases refused : bufsz < datsz * 2 + 1
  · exact ⟨fun _ => Or.inr refused, fun _ =>
      ⟨writeHex_refused size refused, writeHex_refused sizeReverse refused⟩⟩
  · rw [or_iff_left refused]
    refine ⟨fun right => ?_, bcWriteHex_digits buf bufsz dat datsz refused⟩
    exact Nat.lt_of_not_le fun large => writeHex_large size refused large right.1

/-- With `2 ^ 31` bytes and room for all digits the count 0 is returned, with
`2 ^ 32` bytes nothing. -/
theorem bcWriteHex_large :
    (¬ WritesHex (bytesAt (fun _ => 0) 0x80000000) (fun _ => 0) 0x100000001
      (bcWriteHexForward (fun _ => 0) 0x100000001 (fun _ => 0) 0x80000000)) ∧
    ∀ fuel, bcWriteHexForward (fun _ => 0) 0x200000001 (fun _ => 0) 0x100000000 fuel = none := by
  constructor
  · exact writeHex_large (bytesAt_length _ _) (by decide) (by decide)
  · intro fuel
    rw [bcWriteHexForward, writeHex, if_neg (by decide), if_neg (by decide),
      writeHexLoop_endless (by decide)]
    rfl

end NuLab.Hex
