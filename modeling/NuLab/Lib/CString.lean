import Mathlib.Data.List.Infix
import Mathlib.Data.UInt

/-! # C strings

`string.h` on lists of bytes.  What follows the first NUL of an array of characters
is not part of the string.  Where a function takes pointers into a larger text,
`memory` is what lies in front of the text's last NUL and a pointer is a position
in it.
-/

namespace NuLab.CString

/-! ## Searching a list -/

section

variable {α : Type*}

theorem takeWhile_front {p : α → Bool} {front back : List α} {next : α}
    (all : ∀ char ∈ front, p char = true) (stops : p next = false) :
    (front ++ next :: back).takeWhile p = front := by
  rw [List.takeWhile_append_of_pos all, List.takeWhile_cons, stops]
  simp

/-- Moving a pointer behind what it points to. -/
theorem drop_behind {list front back : List α} {ptr : Nat} (here : list.drop ptr = front ++ back) :
    list.drop (ptr + front.length) = back := by
  rw [← List.drop_drop, here, List.drop_left]

variable [DecidableEq α] {needle : List α}

theorem takeWhile_ne {a : α} {list : List α} (member : a ∈ list) :
    ∃ behind, list = list.takeWhile (· ≠ a) ++ a :: behind := by
  induction list with
  | nil => simp at member
  | cons head rest inductionHypothesis =>
    by_cases same : head = a
    · exact ⟨rest, by simp [same]⟩
    · obtain ⟨behind, split⟩ :=
        inductionHypothesis ((List.mem_cons.mp member).resolve_left (Ne.symm same))
      refine ⟨behind, ?_⟩
      rw [List.takeWhile_cons, if_pos (by simpa using same), List.cons_append, ← split]

/-- The first position at which `needle` occurs. -/
def find (needle : List α) : List α → Option Nat
  | [] => if needle = [] then some 0 else none
  | head :: rest => if needle <+: head :: rest then some 0 else (find needle rest).map (· + 1)

theorem find_first {list : List α} {i : Nat} (inside : i ≤ list.length)
    (occurs : needle <+: list.drop i) (first : ∀ j < i, ¬ needle <+: list.drop j) :
    find needle list = some i := by
  induction list generalizing i with
  | nil =>
    obtain rfl : i = 0 := Nat.le_zero.mp inside
    rw [find, if_pos (List.prefix_nil.mp occurs)]
  | cons head rest inductionHypothesis =>
    cases i with
    | zero => rw [find, if_pos (by simpa using occurs)]
    | succ i =>
      have notHere : ¬ needle <+: head :: rest := first 0 (Nat.succ_pos i)
      rw [find, if_neg notHere, inductionHypothesis (Nat.le_of_succ_le_succ inside)
        (by simpa using occurs)]
      · rfl
      · intro j before
        simpa using first (j + 1) (Nat.succ_lt_succ before)

theorem find_none {list : List α} (absent : ∀ j ≤ list.length, ¬ needle <+: list.drop j) :
    find needle list = none := by
  induction list with
  | nil =>
    have nonempty : needle ≠ [] := by
      rintro rfl
      exact absent 0 (Nat.le_refl 0) List.nil_prefix
    rw [find, if_neg nonempty]
  | cons head rest inductionHypothesis =>
    have notHere : ¬ needle <+: head :: rest := absent 0 (Nat.zero_le _)
    rw [find, if_neg notHere, inductionHypothesis]
    · rfl
    · intro j inside
      simpa using absent (j + 1) (Nat.succ_le_succ inside)

theorem find_spec {list : List α} {i : Nat} (found : find needle list = some i) :
    needle <+: list.drop i ∧ ∀ j < i, ¬ needle <+: list.drop j := by
  induction list generalizing i with
  | nil =>
    rw [find] at found
    split_ifs at found with empty
    cases found
    exact ⟨by simp [empty], fun j before => absurd before (Nat.not_lt_zero j)⟩
  | cons head rest inductionHypothesis =>
    rw [find] at found
    split_ifs at found with here
    · cases found
      exact ⟨by simpa using here, fun j before => absurd before (Nat.not_lt_zero j)⟩
    · obtain ⟨k, later, rfl⟩ := Option.map_eq_some_iff.mp found
      obtain ⟨occurs, first⟩ := inductionHypothesis later
      refine ⟨by simpa using occurs, fun j before => ?_⟩
      cases j with
      | zero => simpa using here
      | succ j => simpa using first j (Nat.lt_of_succ_lt_succ before)

theorem find_absent {list : List α} (missing : find needle list = none) (j : Nat)
    (nonempty : needle ≠ []) : ¬ needle <+: list.drop j := by
  intro occurs
  induction list generalizing j with
  | nil =>
    rw [List.drop_nil] at occurs
    exact nonempty (List.prefix_nil.mp occurs)
  | cons head rest inductionHypothesis =>
    rw [find] at missing
    split_ifs at missing with here
    cases j with
    | zero => exact here occurs
    | succ j => exact inductionHypothesis (Option.map_eq_none_iff.mp missing) j occurs

/-- All positions at which `needle` occurs. -/
def occurrences (needle : List α) : List α → List Nat
  | [] => []
  | head :: rest =>
    (if needle <+: head :: rest then [0] else []) ++ (occurrences needle rest).map (· + 1)

theorem mem_occurrences {list : List α} {i : Nat} (nonempty : needle ≠ [])
    (occurs : needle <+: list.drop i) :
    i ∈ occurrences needle list := by
  induction list generalizing i with
  | nil =>
    rw [List.drop_nil] at occurs
    exact absurd (List.prefix_nil.mp occurs) nonempty
  | cons head rest inductionHypothesis =>
    rw [occurrences, List.mem_append]
    cases i with
    | zero =>
      left
      simpa using occurs
    | succ i =>
      right
      exact List.mem_map.mpr ⟨i, inductionHypothesis occurs, rfl⟩

end

/-! ## Strings -/

/-- The bytes of a string literal. -/
def text (literal : String) : List UInt8 := literal.toList.map Char.toUInt8

/-- What all characters of a string have in common can be computed. -/
theorem all_chars {p : UInt8 → Prop} [DecidablePred p] {chars : List UInt8}
    (computed : chars.all (fun char => p char) = true) : ∀ char ∈ chars, p char := by
  simpa using computed

/-- The string in an array of characters. -/
def cString (chars : List UInt8) : List UInt8 := chars.takeWhile (· ≠ 0)

/-- What `strncpy(dst, src, num)` leaves in `dst[0]` to `dst[num - 1]`. -/
def strncpy (src : List UInt8) (num : Nat) : List UInt8 :=
  let copied := (cString src).take num
  copied ++ List.replicate (num - copied.length) 0

/-- `strncmp(s1, s2, num) == 0` -/
def strncmpEq (s1 s2 : List UInt8) (num : Nat) : Bool :=
  (cString s1).take num == (cString s2).take num

def strstr (memory : List UInt8) (ptr : Nat) (needle : List UInt8) : Option Nat :=
  (find needle (cString (memory.drop ptr))).map (ptr + ·)

def strspn (memory : List UInt8) (ptr : Nat) (accept : List UInt8) : Nat :=
  ((cString (memory.drop ptr)).takeWhile (· ∈ accept)).length

def strcspn (memory : List UInt8) (ptr : Nat) (reject : List UInt8) : Nat :=
  ((cString (memory.drop ptr)).takeWhile (· ∉ reject)).length

def isspace (char : UInt8) : Bool := char == 32 || (9 ≤ char && char ≤ 13)

/-- The value of a digit in bases up to 36. -/
def digit (char : UInt8) : Option Nat :=
  if 48 ≤ char ∧ char ≤ 57 then some (char.toNat - 48)
  else if 97 ≤ char ∧ char ≤ 122 then some (char.toNat - 87)
  else if 65 ≤ char ∧ char ≤ 90 then some (char.toNat - 55)
  else none

/-- The digits that `chars` begins with. -/
def digits (base : Nat) : List UInt8 → List Nat
  | [] => []
  | char :: rest =>
    match digit char with
    | some value => if value < base then value :: digits base rest else []
    | none => []

/-- A prefix `0x` counts if a digit follows. -/
def skipBasePrefix (chars : List UInt8) : List UInt8 :=
  match chars with
  | zero :: letter :: rest =>
    if zero = 48 ∧ (letter = 120 ∨ letter = 88) ∧ digits 16 rest ≠ [] then rest else chars
  | _ => chars

/-- `strtoul(nptr, NULL, base)` for the bases 10 and 16, where `unsigned long` has 64 bits. -/
def strtoul (memory : List UInt8) (nptr base : Nat) : UInt64 :=
  let chars := (cString (memory.drop nptr)).dropWhile isspace
  let negative := chars.head? = some 45
  let chars := if negative ∨ chars.head? = some 43 then chars.tail else chars
  let chars := if base = 16 then skipBasePrefix chars else chars
  let value := (digits base chars).foldl (fun value digit => value * base + digit) 0
  if 2 ^ 64 ≤ value then UInt64.ofNat (2 ^ 64 - 1)
  else if negative then -UInt64.ofNat value
  else UInt64.ofNat value

example : strtoul (text " \n-0x1fG") 1 16 = UInt64.ofNat (2 ^ 64 - 31) := by decide

/-- A command is not equal to two different words. -/
theorem strncmpEq_other {cmd word : List UInt8} {num : Nat} (same : strncmpEq cmd word num = true)
    (other : List UInt8) (different : strncmpEq word other num = false) :
    strncmpEq cmd other num = false := by
  unfold strncmpEq at *
  rw [eq_of_beq same]
  exact different

theorem cString_padded {chars : List UInt8} (noNul : ∀ char ∈ chars, char ≠ 0) (count : Nat) :
    cString (chars ++ List.replicate count 0) = chars := by
  have all : ∀ char ∈ chars, decide (char ≠ 0) = true :=
    fun char member => decide_eq_true (noNul char member)
  rw [cString, List.takeWhile_append_of_pos all]
  cases count with
  | zero => simp
  | succ count => simp [List.replicate_succ]

theorem cString_whole {chars : List UInt8} (noNul : ∀ char ∈ chars, char ≠ 0) :
    cString chars = chars := by
  have padded := cString_padded noNul 0
  rwa [List.replicate_zero, List.append_nil] at padded

/-! ## Pointers into a text -/

section

variable {memory needle : List UInt8} {ptr : Nat}

theorem cString_drop (noNul : ∀ char ∈ memory, char ≠ 0) (ptr : Nat) :
    cString (memory.drop ptr) = memory.drop ptr :=
  cString_whole fun char member => noNul char (List.mem_of_mem_drop member)

theorem strstr_ge {i : Nat} (found : strstr memory ptr needle = some i) : ptr ≤ i := by
  obtain ⟨j, -, rfl⟩ := Option.map_eq_some_iff.mp found
  exact Nat.le_add_right ptr j

theorem strstr_inside {i : Nat} (found : strstr memory ptr needle = some i)
    (nonempty : needle ≠ []) : i + needle.length ≤ memory.length := by
  obtain ⟨k, here, rfl⟩ := Option.map_eq_some_iff.mp found
  have occurs := (find_spec here).1.length_le
  have long := List.length_pos_iff.mpr nonempty
  have string : (cString (memory.drop ptr)).length ≤ (memory.drop ptr).length :=
    (List.takeWhile_sublist _).length_le
  simp only [List.length_drop] at occurs string
  omega

/-- The first occurrence from `ptr` on. -/
theorem strstr_first (noNul : ∀ char ∈ memory, char ≠ 0) {i : Nat} (behind : ptr ≤ i)
    (inside : i ≤ memory.length) (occurs : needle <+: memory.drop i)
    (first : ∀ j, ptr ≤ j → j < i → ¬ needle <+: memory.drop j) :
    strstr memory ptr needle = some i := by
  have found : find needle (memory.drop ptr) = some (i - ptr) := by
    apply find_first
    · rw [List.length_drop]
      omega
    · rwa [List.drop_drop, Nat.add_sub_cancel' behind]
    · intro j before
      rw [List.drop_drop]
      exact first (ptr + j) (Nat.le_add_right ptr j) (by omega)
  rw [strstr, cString_drop noNul, found, Option.map_some, Nat.add_sub_cancel' behind]

theorem strstr_none (noNul : ∀ char ∈ memory, char ≠ 0) (inside : ptr ≤ memory.length)
    (absent : ∀ j, ptr ≤ j → j ≤ memory.length → ¬ needle <+: memory.drop j) :
    strstr memory ptr needle = none := by
  have missing : find needle (memory.drop ptr) = none := by
    apply find_none
    intro j bound
    rw [List.length_drop] at bound
    rw [List.drop_drop]
    exact absent (ptr + j) (Nat.le_add_right ptr j) (by omega)
  rw [strstr, cString_drop noNul, missing, Option.map_none]

theorem strstr_spec (noNul : ∀ char ∈ memory, char ≠ 0) {i : Nat}
    (found : strstr memory ptr needle = some i) :
    needle <+: memory.drop i ∧ ∀ j, ptr ≤ j → j < i → ¬ needle <+: memory.drop j := by
  rw [strstr, cString_drop noNul] at found
  obtain ⟨k, here, rfl⟩ := Option.map_eq_some_iff.mp found
  obtain ⟨occurs, first⟩ := find_spec here
  rw [List.drop_drop] at occurs
  refine ⟨occurs, fun j behind before => ?_⟩
  have earlier := first (j - ptr) (by omega)
  rwa [List.drop_drop, Nat.add_sub_cancel' behind] at earlier

theorem strstr_absent (noNul : ∀ char ∈ memory, char ≠ 0) (nonempty : needle ≠ [])
    (missing : strstr memory ptr needle = none) {j : Nat} (behind : ptr ≤ j) :
    ¬ needle <+: memory.drop j := by
  rw [strstr, cString_drop noNul, Option.map_eq_none_iff] at missing
  have absent := find_absent missing (j - ptr) nonempty
  rwa [List.drop_drop, Nat.add_sub_cancel' behind] at absent

theorem strspn_eq (noNul : ∀ char ∈ memory, char ≠ 0) {front back accept : List UInt8}
    {next : UInt8} (split : memory.drop ptr = front ++ next :: back)
    (all : ∀ char ∈ front, char ∈ accept) (stops : next ∉ accept) :
    strspn memory ptr accept = front.length := by
  rw [strspn, cString_drop noNul, split,
    takeWhile_front (by simpa using all) (by simpa using stops)]

theorem strspn_ge (noNul : ∀ char ∈ memory, char ≠ 0) {front back accept : List UInt8}
    (split : memory.drop ptr = front ++ back) (all : ∀ char ∈ front, char ∈ accept) :
    front.length ≤ strspn memory ptr accept := by
  rw [strspn, cString_drop noNul, split, List.takeWhile_append_of_pos (by simpa using all),
    List.length_append]
  exact Nat.le_add_right _ _

theorem strcspn_eq (noNul : ∀ char ∈ memory, char ≠ 0) {front back reject : List UInt8}
    {next : UInt8} (split : memory.drop ptr = front ++ next :: back)
    (clear : ∀ char ∈ front, char ∉ reject) (stops : next ∈ reject) :
    strcspn memory ptr reject = front.length := by
  rw [strcspn, cString_drop noNul, split,
    takeWhile_front (by simpa using clear) (by simpa using stops)]

end

end NuLab.CString
