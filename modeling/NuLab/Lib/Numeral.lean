import Mathlib.Data.Nat.Digits.Defs
import NuLab.Lib.CString
import NuLab.Lib.Parse

/-! # Numerals

What `printf` writes for a number is read back by `strtoul`, and by a parser that knows
what stands behind the number.
-/

namespace NuLab.Numeral

open NuLab.CString NuLab.Parse

/-- `%u` and `%x` -/
def numeral (base number : Nat) : List UInt8 := (Nat.toDigits base number).map Char.toUInt8

/-- `%0*x` -/
def padded (width base number : Nat) : List UInt8 :=
  List.replicate (width - (numeral base number).length) 48 ++ numeral base number

/-- The number with these digits. -/
def value (base : Nat) (digits : List Nat) : Nat :=
  digits.foldl (fun value digit => value * base + digit) 0

/-- A number up to `closing`. -/
def number (base : Nat) (closing : List UInt8) : Parser UInt8 Nat := fun input =>
  let read := digits base input
  andThen (literal closing) (fun _ => done (value base read)) (input.drop read.length)

variable {base : Nat}

/-! ## Digits -/

/-- All characters are digits of this base. -/
def Digits (base : Nat) (chars : List UInt8) : Prop :=
  ∀ char ∈ chars, ∃ value < base, digit char = some value

theorem digit_digitChar {value : Nat} (hex : value < 16) :
    digit (Nat.digitChar value).toUInt8 = some value := by
  revert value
  decide

theorem digits_singleton {value : Nat} (small : value < base) (hex : base ≤ 16) :
    Digits base [(Nat.digitChar value).toUInt8] := by
  intro char member
  obtain rfl := List.mem_singleton.mp member
  exact ⟨value, small, digit_digitChar (Nat.lt_of_lt_of_le small hex)⟩

theorem Digits.append {front back : List UInt8} (digits : Digits base front)
    (digits' : Digits base back) :
    Digits base (front ++ back) := by
  intro char member
  cases List.mem_append.mp member with
  | inl member => exact digits char member
  | inr member => exact digits' char member

theorem Digits.digits_append {front : List UInt8} (digits : Digits base front) (back : List UInt8) :
    CString.digits base (front ++ back) = CString.digits base front ++ CString.digits base back ∧
      (CString.digits base front).length = front.length := by
  induction front with
  | nil => exact ⟨rfl, rfl⟩
  | cons char front inductionHypothesis =>
    obtain ⟨value, small, found⟩ := digits char List.mem_cons_self
    obtain ⟨later, length⟩ := inductionHypothesis fun char member =>
      digits char (List.mem_cons_of_mem _ member)
    simp only [List.cons_append, CString.digits, found, if_pos small, later, List.length_cons,
      length, and_self]

/-! ## Numerals -/

theorem numeral_split (binary : 1 < base) (number : Nat) :
    numeral base number = if number < base then [(Nat.digitChar number).toUInt8]
      else numeral base (number / base) ++ [(Nat.digitChar (number % base)).toUInt8] := by
  rw [numeral, Nat.toDigits_eq_if binary]
  split_ifs
  · rfl
  · rw [List.map_append]
    rfl

theorem numeral_digits (binary : 1 < base) (hex : base ≤ 16) (number : Nat) :
    Digits base (numeral base number) := by
  induction number using Nat.strong_induction_on with
  | h number inductionHypothesis =>
    rw [numeral_split binary]
    split_ifs with small
    · exact digits_singleton small hex
    · have less : number / base < number := Nat.div_lt_self (by omega) binary
      exact (inductionHypothesis _ less).append (digits_singleton (Nat.mod_lt _ (by omega)) hex)

theorem digits_digitChar {value : Nat} (small : value < base) (hex : base ≤ 16) :
    digits base [(Nat.digitChar value).toUInt8] = [value] := by
  simp only [digits, digit_digitChar (Nat.lt_of_lt_of_le small hex), if_pos small]

theorem value_numeral (binary : 1 < base) (hex : base ≤ 16) (number : Nat) :
    value base (digits base (numeral base number)) = number := by
  induction number using Nat.strong_induction_on with
  | h number inductionHypothesis =>
    rw [numeral_split binary]
    split_ifs with small
    · rw [digits_digitChar small hex, value, List.foldl_cons, List.foldl_nil,
        Nat.zero_mul, Nat.zero_add]
    · have less : number / base < number := Nat.div_lt_self (by omega) binary
      have last := digits_digitChar (Nat.mod_lt number (Nat.lt_of_succ_lt binary)) hex
      have front := inductionHypothesis (number / base) less
      rw [((numeral_digits binary hex (number / base)).digits_append _).1, last, value,
        List.foldl_append, List.foldl_cons, List.foldl_nil, ← value, front, Nat.mul_comm]
      exact Nat.div_add_mod number base

/-! ## `strtoul` -/

theorem digit_high {char : UInt8} {value : Nat} (found : digit char = some value) : 48 ≤ char := by
  unfold digit at found
  grind

/-- Nothing in front of digits is skipped. -/
theorem Digits.strtoul {chars : List UInt8} (isDigits : Digits base chars) :
    strtoul chars 0 base =
      if 2 ^ 64 ≤ value base (digits base chars) then UInt64.ofNat (2 ^ 64 - 1)
      else UInt64.ofNat (value base (digits base chars)) := by
  have high : ∀ char ∈ chars, 48 ≤ char := by
    intro char member
    obtain ⟨value, -, found⟩ := isDigits char member
    exact digit_high found
  have whole : cString chars = chars := cString_whole fun char member zero => by
    have bound := high char member
    rw [zero] at bound
    exact absurd bound (by decide)
  have spaces : chars.dropWhile isspace = chars := by
    cases chars with
    | nil => rfl
    | cons char rest =>
      have bound := high char List.mem_cons_self
      rw [List.dropWhile_cons_of_neg]
      unfold isspace
      grind
  have sign (low : UInt8) (small : low < 48) : chars.head? ≠ some low := fun same =>
    absurd (high low (List.mem_of_mem_head? same)) (UInt8.not_le.mpr small)
  -- a 0x in front would be skipped, but x is no digit
  have front : (if base = 16 then skipBasePrefix chars else chars) = chars := by
    split_ifs with sixteen
    · unfold skipBasePrefix
      split
      next zero letter rest =>
        rw [if_neg]
        rintro ⟨-, rfl | rfl, -⟩
        · obtain ⟨value, small, found⟩ := isDigits 120 (by simp)
          -- x has the value 33, which no base up to 16 has for a digit
          have thirtyThree : digit 120 = some 33 := by decide
          grind
        · obtain ⟨value, small, found⟩ := isDigits 88 (by simp)
          have thirtyThree : digit 88 = some 33 := by decide
          grind
      next => rfl
    · rfl
  rw [CString.strtoul]
  simp only [List.drop_zero, whole, spaces, sign 45 (by decide), sign 43 (by decide), or_self,
    if_false, front, value]
  rfl

/-- A number that is written out and read again is the same. -/
theorem strtoul_numeral (binary : 1 < base) (hex : base ≤ 16) {number : Nat}
    (word : number < 2 ^ 64) : strtoul (numeral base number) 0 base = UInt64.ofNat number := by
  rw [(numeral_digits binary hex number).strtoul, value_numeral binary hex,
    if_neg (Nat.not_le_of_lt word)]

/-! ## Numbers up to something else -/

theorem digits_zeros (binary : 1 < base) (count : Nat) (chars : List UInt8) :
    digits base (List.replicate count 48 ++ chars) = List.replicate count 0 ++
      digits base chars := by
  have zero : digit 48 = some 0 := by decide
  induction count with
  | zero => rfl
  | succ count inductionHypothesis =>
    simp only [List.replicate_succ, List.cons_append, digits, zero,
      if_pos (Nat.lt_of_succ_lt binary), inductionHypothesis]

theorem value_zeros (count : Nat) (digits : List Nat) :
    value base (List.replicate count 0 ++ digits) = value base digits := by
  induction count with
  | zero => rfl
  | succ count inductionHypothesis =>
    rw [List.replicate_succ, List.cons_append, value, List.foldl_cons, Nat.zero_mul, Nat.zero_add]
    exact inductionHypothesis

theorem digits_stop {char : UInt8} (other : digit char = none) (rest : List UInt8) :
    digits base (char :: rest) = [] := by
  simp only [digits, other]

/-- What stands behind the number does not begin with a digit. -/
theorem reads_padded (binary : 1 < base) (hex : base ≤ 16) {closing : List UInt8} {char : UInt8}
    (first : closing.head? = some char) (other : digit char = none) (width val : Nat) :
    Reads (number base closing) (padded width base val ++ closing) val := by
  intro rest
  -- the digits end where `closing` begins
  have stops : digits base (closing ++ rest) = [] := by
    obtain ⟨others, rfl⟩ := List.head?_eq_some_iff.mp first
    exact digits_stop other (others ++ rest)
  have length := (numeral_digits binary hex val).digits_append (closing ++ rest)
  rw [stops, List.append_nil] at length
  have read : digits base (padded width base val ++ closing ++ rest) =
      List.replicate (width - (numeral base val).length) 0 ++ digits base (numeral base val) := by
    rw [List.append_assoc, padded, List.append_assoc, digits_zeros binary, length.1]
  have size : (digits base (padded width base val ++ closing ++ rest)).length =
      (padded width base val).length := by
    rw [read, padded, List.length_append, List.length_append, List.length_replicate,
      List.length_replicate, length.2]
  have behind : (padded width base val ++ closing ++ rest).drop (padded width base val).length =
      closing ++ rest := by
    rw [List.append_assoc, List.drop_left]
  rw [number, size, behind, andThen, reads_literal, Option.bind_some, read, value_zeros,
    value_numeral binary hex]
  rfl

end NuLab.Numeral
