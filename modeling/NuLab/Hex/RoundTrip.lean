import Mathlib.Data.List.GetD
import NuLab.Hex.Write

/-! # Hashes as text: `bc_hash32_str_make` and `bc_hash32_from_cspan`

Both reverse the bytes: the text of a hash begins with its last byte.  Between text and
bytes `lowerHex` and `ofHexDigits` are inverse to each other, up to the case of the
letters.
-/

namespace NuLab.Hex

open NuLab.Json NuLab.While

/-- `s` is the memory at `s->data`, an array of 65 characters. -/
def bcHash32StrMake (s : Nat → UInt8) (h : BcHash32) (fuel : Nat) : Option (Nat → UInt8) :=
  (bcWriteHexBackward s (UInt64.ofNat (BcHashStringSize + 1)) (fun k => h.toList.getD k 0) 32
    fuel).map Prod.snd

/-- The `bc_hash32_hex_t` in memory. -/
def hash32Hex (s : Nat → UInt8) : List UInt8 := (List.range (BcHashStringSize + 1)).map s

def isxdigit (char : UInt8) : Bool :=
  (48 ≤ char && char ≤ 57) || (97 ≤ char && char ≤ 102) || (65 ≤ char && char ≤ 70)

def tolower (char : UInt8) : UInt8 := if 65 ≤ char ∧ char ≤ 90 then char + 32 else char

/-! ## Digits -/

theorem bcHexCharMap_digitChar {value : Nat} (small : value < 16) :
    bcHexCharMap (digitChar value) = UInt8.ofNat value ∧ isxdigit (digitChar value) = true ∧
      tolower (digitChar value) = digitChar value := by
  revert value
  decide

theorem bcHexCharMap_xdigit {char : UInt8} (digit : isxdigit char = true) :
    (bcHexCharMap char).toNat < 16 ∧ digitChar (bcHexCharMap char).toNat = tolower char := by
  have all : ∀ code < 256, isxdigit (UInt8.ofNat code) = true →
    (bcHexCharMap (UInt8.ofNat code)).toNat < 16 ∧
      digitChar (bcHexCharMap (UInt8.ofNat code)).toNat = tolower (UInt8.ofNat code) := by
    decide +kernel
  have here := all char.toNat char.toNat_lt
  rw [UInt8.ofNat_toNat] at here
  exact here digit

/-- The second digit is the lower one. -/
theorem bcHexCharToByte_toNat {hex0 hex1 : UInt8} (upper : (bcHexCharMap hex0).toNat < 16)
    (lower : (bcHexCharMap hex1).toNat < 16) :
    (bcHexCharToByte hex0 hex1).toNat = (bcHexCharMap hex0).toNat * 16 +
      (bcHexCharMap hex1).toNat := by
  have shifted : (bcHexCharMap hex0 <<< 4).toNat = (bcHexCharMap hex0).toNat <<< 4 := by
    rw [UInt8.toNat_shiftLeft]
    simp only [UInt8.reduceToNat, Nat.reduceMod, Nat.shiftLeft_eq]
    omega
  rw [bcHexCharToByte, UInt8.toNat_or, shifted, Nat.or_comm, ← Nat.shiftLeft_add_eq_or_of_lt lower,
    Nat.shiftLeft_eq]

theorem bcHexCharToByte_digits (byte : UInt8) :
    bcHexCharToByte (digitChar (byte.toNat / 16)) (digitChar (byte.toNat % 16)) = byte := by
  have small := byte.toNat_lt
  have upper : bcHexCharMap (digitChar (byte.toNat / 16)) = UInt8.ofNat (byte.toNat / 16) :=
    (bcHexCharMap_digitChar (by omega)).1
  have lower : bcHexCharMap (digitChar (byte.toNat % 16)) = UInt8.ofNat (byte.toNat % 16) :=
    (bcHexCharMap_digitChar (by omega)).1
  apply UInt8.toNat_inj.mp
  rw [bcHexCharToByte_toNat, upper, lower, UInt8.toNat_ofNat', UInt8.toNat_ofNat']
  · omega
  · rw [upper, UInt8.toNat_ofNat']
    omega
  · rw [lower, UInt8.toNat_ofNat']
    omega

theorem byteDigits_toByte {hex0 hex1 : UInt8} (digit0 : isxdigit hex0 = true)
    (digit1 : isxdigit hex1 = true) :
    byteDigits (bcHexCharToByte hex0 hex1) = [tolower hex0, tolower hex1] := by
  obtain ⟨upper, char0⟩ := bcHexCharMap_xdigit digit0
  obtain ⟨lower, char1⟩ := bcHexCharMap_xdigit digit1
  have quotient : ((bcHexCharMap hex0).toNat * 16 + (bcHexCharMap hex1).toNat) / 16 =
      (bcHexCharMap hex0).toNat := by
    omega
  have rest : ((bcHexCharMap hex0).toNat * 16 + (bcHexCharMap hex1).toNat) % 16 =
      (bcHexCharMap hex1).toNat := by
    omega
  rw [byteDigits, bcHexCharToByte_toNat upper lower, quotient, rest, char0, char1]

/-! ## Strings of digits -/

/-- The bytes that pairs of digits stand for. -/
def ofHexDigits : List UInt8 → List UInt8
  | [] => []
  | [_] => []
  | hex0 :: hex1 :: chars => bcHexCharToByte hex0 hex1 :: ofHexDigits chars

theorem lowerHex_cons (byte : UInt8) (bytes : List UInt8) :
    lowerHex (byte :: bytes) = digitChar (byte.toNat / 16) :: digitChar (byte.toNat % 16) ::
      lowerHex bytes := rfl

theorem ofHexDigits_lowerHex (bytes : List UInt8) : ofHexDigits (lowerHex bytes) = bytes := by
  induction bytes with
  | nil => rfl
  | cons byte bytes inductionHypothesis =>
    rw [lowerHex_cons, ofHexDigits, bcHexCharToByte_digits, inductionHypothesis]

theorem lowerHex_ofHexDigits {chars : List UInt8} (even : chars.length % 2 = 0)
    (digits : ∀ char ∈ chars, isxdigit char = true) :
    lowerHex (ofHexDigits chars) = chars.map tolower := by
  induction chars using ofHexDigits.induct with
  | case1 => rfl
  | case2 hex0 => simp at even
  | case3 hex0 hex1 chars inductionHypothesis =>
    have pair := byteDigits_toByte (digits hex0 (by simp)) (digits hex1 (by simp))
    have shorter : chars.length % 2 = 0 := by
      rw [List.length_cons, List.length_cons] at even
      omega
    have later := inductionHypothesis shorter fun char member => digits char (by simp [member])
    rw [ofHexDigits, lowerHex, List.flatMap_cons, pair, ← lowerHex, later]
    rfl

theorem lowerHex_isLower {bytes : List UInt8} {char : UInt8} (member : char ∈ lowerHex bytes) :
    isxdigit char = true ∧ tolower char = char := by
  obtain ⟨byte, -, inByte⟩ := List.mem_flatMap.mp member
  have small := byte.toNat_lt
  rcases List.mem_pair.mp inByte with rfl | rfl
  · exact (bcHexCharMap_digitChar (by omega)).2
  · exact (bcHexCharMap_digitChar (Nat.mod_lt _ (by decide))).2

theorem ofHexDigits_length (chars : List UInt8) :
    (ofHexDigits chars).length = chars.length / 2 := by
  induction chars using ofHexDigits.induct with
  | case1 => rfl
  | case2 hex0 => simp [ofHexDigits]
  | case3 hex0 hex1 chars inductionHypothesis =>
    rw [ofHexDigits, List.length_cons, inductionHypothesis, List.length_cons, List.length_cons]
    omega

theorem ofHexDigits_getD (chars : List UInt8) {i : Nat} (inside : i < chars.length / 2) :
    (ofHexDigits chars).getD i 0 = bcHexCharToByte (chars.getD (i * 2) 0)
      (chars.getD (i * 2 + 1) 0) := by
  induction chars using ofHexDigits.induct generalizing i with
  | case1 => simp at inside
  | case2 hex0 => simp at inside
  | case3 hex0 hex1 chars inductionHypothesis =>
    cases i with
    | zero => rfl
    | succ i =>
      rw [List.length_cons, List.length_cons] at inside
      rw [ofHexDigits, List.getD_cons_succ, inductionHypothesis (by omega), Nat.succ_mul]
      rfl

/-! ## Hashes -/

theorem hash32OfChars_toList {string : List UInt8} (size : string.length = BcHashStringSize)
    (back : List UInt8) :
    (hash32OfChars (string ++ back)).toList = (ofHexDigits string).reverse := by
  have bytes : (ofHexDigits string).length = 32 := by rw [ofHexDigits_length, size]; rfl
  rw [BcHashStringSize] at size
  rw [hash32OfChars, Vector.toList_ofFn]
  apply List.ext_getElem
  · rw [List.length_ofFn, List.length_reverse, bytes]
  · intro k inside inReverse
    rw [List.length_ofFn] at inside
    have mirrored := ofHexDigits_getD string (i := 31 - k) (by omega)
    rw [List.getD_eq_getElem (ofHexDigits string) 0 (by omega)] at mirrored
    rw [List.getElem_ofFn, List.getElem_reverse]
    simp only [bytes, Nat.reduceSub]
    rw [mirrored, List.getD_append _ _ _ _ (by omega), List.getD_append _ _ _ _ (by omega)]

theorem bytesAt_hash (h : BcHash32) : bytesAt (fun k => h.toList.getD k 0) 32 = h.toList := by
  apply List.ext_getElem
  · rw [bytesAt_length, Vector.length_toList]
    rfl
  · intro k inside inHash
    simp only [bytesAt, List.getElem_map, List.getElem_range, List.getD_eq_getElem _ _ inHash]

theorem bcHash32StrMake_spec (s : Nat → UInt8) (h : BcHash32) :
    ∃ after, Ends (bcHash32StrMake s h) after ∧ hash32Hex after =
      lowerHex h.toList.reverse ++ [0] := by
  obtain ⟨ret, after, ends, -, enough⟩ := (bcWriteHex_digits s (UInt64.ofNat (BcHashStringSize + 1))
    (fun k => h.toList.getD k 0) 32 (by decide) (by decide)).2
  rw [bytesAt_hash] at enough
  have size : h.toList.reverse.length = 32 := by simp
  obtain ⟨-, digits, -⟩ := enough (by rw [size]; decide)
  rw [size] at digits
  exact ⟨after, ends.map Prod.snd, digits⟩

theorem bcHash32FromCspan_string (front string back : List UInt8) :
    bcHash32FromCspan (front ++ (string ++ back)) ⟨front.length, front.length + BcHashStringSize⟩ =
      some (hash32OfChars (string ++ back)) := by
  rw [bcHash32FromCspan, if_pos (by simp), List.drop_left]

/-- From a hash to its text and back, and from any text of 64 digits to the hash and back. -/
theorem bcHash32_roundTrip :
    (∀ (h : BcHash32) (s : Nat → UInt8), ∃ after digits, Ends (bcHash32StrMake s h) after ∧
      hash32Hex after = digits ++ [0] ∧ digits.length = BcHashStringSize ∧
      (∀ char ∈ digits, isxdigit char = true ∧ tolower char = char) ∧
      bcHash32FromCspan (hash32Hex after) ⟨0, BcHashStringSize⟩ = some h) ∧
    ∀ (front string back : List UInt8) (s : Nat → UInt8), string.length = BcHashStringSize →
      (∀ char ∈ string, isxdigit char = true) →
      ∃ h after, bcHash32FromCspan (front ++ (string ++ back))
        ⟨front.length, front.length + BcHashStringSize⟩ = some h ∧
        Ends (bcHash32StrMake s h) after ∧ hash32Hex after = string.map tolower ++ [0] := by
  constructor
  · intro h s
    obtain ⟨after, ends, written⟩ := bcHash32StrMake_spec s h
    have size : (lowerHex h.toList.reverse).length = BcHashStringSize := by
      rw [lowerHex_length, List.length_reverse, Vector.length_toList]
      rfl
    refine ⟨after, lowerHex h.toList.reverse, ends, written, size, fun char => lowerHex_isLower, ?_⟩
    have read := bcHash32FromCspan_string [] (lowerHex h.toList.reverse) [0]
    have same : hash32OfChars (lowerHex h.toList.reverse ++ [0]) = h := by
      rw [← Vector.toList_inj, hash32OfChars_toList size, ofHexDigits_lowerHex,
        List.reverse_reverse]
    rw [written]
    rw [same] at read
    simpa using read
  · intro front string back s size digits
    obtain ⟨after, ends, written⟩ := bcHash32StrMake_spec s (hash32OfChars (string ++ back))
    refine ⟨_, after, bcHash32FromCspan_string front string back, ends, ?_⟩
    rw [written, hash32OfChars_toList size, List.reverse_reverse,
      lowerHex_ofHexDigits (by rw [size]; rfl) digits]

/-- 64 times `A`. -/
theorem bcHash32_roundTrip_capitals :
    ∃ h after, bcHash32FromCspan (List.replicate 64 65) ⟨0, 64⟩ = some h ∧
      Ends (bcHash32StrMake (fun _ => 0) h) after ∧ hash32Hex after =
        List.replicate 64 97 ++ [0] := by
  have digits : ∀ char ∈ List.replicate 64 (65 : UInt8), isxdigit char = true := by
    intro char member
    rw [List.eq_of_mem_replicate member]
    rfl
  have both := bcHash32_roundTrip.2 [] (List.replicate 64 65) [] (fun _ => 0)
    List.length_replicate digits
  rw [List.append_nil, List.map_replicate] at both
  exact both

end NuLab.Hex
