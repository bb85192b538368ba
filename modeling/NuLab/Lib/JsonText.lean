import NuLab.Lib.CString

/-! # JSON texts

A value together with the whitespace between its tokens, so that every text is the
layout of a value.  Strings have no escapes.  A quoted word can be looked for in a text
without reading it: it stands where a string of the text is the word, and nowhere else
unless it holds a comma or a colon.
-/

namespace NuLab.JsonText

open NuLab.CString

/-! ## Values -/

/-- The whitespace between two tokens. -/
def Blank : Type := { chars : List UInt8 // ∀ char ∈ chars, char ∈ text " \t\n\r" }

/-- The characters of a string without escapes. -/
def Plain : Type := { chars : List UInt8 // ∀ char ∈ chars, 32 ≤ char ∧ char ≠ 34 ∧ char ≠ 92 }

def Digits : Type := { chars : List UInt8 // chars ≠ [] ∧ ∀ char ∈ chars, char ∈ text "0123456789" }

structure Exponent where
  capital : Bool
  /-- Whether the sign, if there is one, is a minus. -/
  minus : Option Bool
  digits : Digits

structure Number where
  minus : Bool
  whole : Digits
  noZeros : whole.1.head? = some 48 → whole.1 = [48]
  frac : Option Digits
  exponent : Option Exponent

inductive Literal where
  | null
  | bool (value : Bool)
  | number (value : Number)

structure Element (α : Type) where
  front : Blank
  value : α
  back : Blank

/-- A member of an object. -/
structure Entry (α : Type) where
  front : Blank
  key : Plain
  beforeColon : Blank
  behindColon : Blank
  value : α
  back : Blank

inductive Value where
  | literal (value : Literal)
  | string (chars : Plain)
  | array (blank : Blank) (elements : List (Element Value))
  | object (blank : Blank) (entries : List (Entry Value))

/-! ## Texts -/

def quoted (chars : List UInt8) : List UInt8 := text "\"" ++ (chars ++ text "\"")

def Exponent.bytes (exponent : Exponent) : List UInt8 :=
  (if exponent.capital then text "E" else text "e") ++
    (exponent.minus.elim [] (fun minus => if minus then text "-" else text "+") ++
      exponent.digits.1)

def Number.bytes (number : Number) : List UInt8 :=
  (if number.minus then text "-" else []) ++ (number.whole.1 ++
    (number.frac.elim [] (fun digits => text "." ++ digits.1) ++
      number.exponent.elim [] Exponent.bytes))

def Literal.bytes : Literal → List UInt8
  | .null => text "null"
  | .bool true => text "true"
  | .bool false => text "false"
  | .number value => value.bytes

mutual

def Value.bytes : Value → List UInt8
  | .literal value => value.bytes
  | .string chars => quoted chars.1
  | .array blank elements =>
    text "[" ++ (blank.1 ++ ((text ",").intercalate (elementBytes elements) ++ text "]"))
  | .object blank entries =>
    text "\x7b" ++ (blank.1 ++ ((text ",").intercalate (entryBytes entries) ++ text "\x7d"))

def elementBytes : List (Element Value) → List (List UInt8)
  | [] => []
  | ⟨front, value, back⟩ :: elements =>
    (front.1 ++ (value.bytes ++ back.1)) :: elementBytes elements

def entryBytes : List (Entry Value) → List (List UInt8)
  | [] => []
  | ⟨front, key, beforeColon, behindColon, value, back⟩ :: entries =>
    (front.1 ++ (quoted key.1 ++ (beforeColon.1 ++
      (text ":" ++ (behindColon.1 ++ (value.bytes ++ back.1)))))) :: entryBytes entries

end

/-- What stands between the key and the value. -/
def Entry.between {α : Type} (entry : Entry α) : List UInt8 :=
  entry.beforeColon.1 ++ (text ":" ++ entry.behindColon.1)

def Entry.bytes (entry : Entry Value) : List UInt8 :=
  entry.front.1 ++ (quoted entry.key.1 ++ (entry.between ++ (entry.value.bytes ++ entry.back.1)))

theorem entryBytes_eq (entries : List (Entry Value)) :
    entryBytes entries = entries.map Entry.bytes := by
  induction entries with
  | nil => rw [entryBytes, List.map_nil]
  | cons entry entries inductionHypothesis =>
    rw [entryBytes, List.map_cons, inductionHypothesis]
    simp only [Entry.bytes, Entry.between, List.append_assoc]

/-- One item of a list with separators. -/
theorem intercalate_split {α : Type} (sep : List α) (front : List (List α)) (item : List α)
    (back : List (List α)) :
    sep.intercalate (front ++ item :: back) = front.flatMap (· ++ sep) ++
      (item ++ back.flatMap (sep ++ ·)) := by
  induction front with
  | nil =>
    rw [List.nil_append, List.flatMap_nil, List.nil_append]
    induction back generalizing item with
    | nil => simp
    | cons next back inductionHypothesis =>
      simp [List.intercalate_cons_cons, inductionHypothesis next]
  | cons first front inductionHypothesis =>
    rw [List.cons_append, List.intercalate_cons_of_ne_nil (by simp), inductionHypothesis]
    simp

/-! ## The strings of a text -/

mutual

/-- The keys and strings, in the order of the text. -/
def Value.strings : Value → List (List UInt8)
  | .literal _ => []
  | .string chars => [chars.1]
  | .array _ elements => elementStrings elements
  | .object _ entries => entryStrings entries

def elementStrings : List (Element Value) → List (List UInt8)
  | [] => []
  | ⟨_, value, _⟩ :: elements => value.strings ++ elementStrings elements

def entryStrings : List (Entry Value) → List (List UInt8)
  | [] => []
  | ⟨_, key, _, _, value, _⟩ :: entries => key.1 :: value.strings ++ entryStrings entries

end

/-- Neither a quote nor a NUL. -/
def Quiet (chars : List UInt8) : Prop := ∀ char ∈ chars, char ≠ 0 ∧ char ≠ 34

/-- A comma or a colon stands in front of the first quote. -/
def Separated (bytes : List UInt8) : Prop :=
  ∃ front sep back, bytes = front ++ sep :: back ∧ Quiet front ∧ (sep = 44 ∨ sep = 58)

/-- A text with these strings: there are no other quotes, and any two strings are separated. -/
inductive Woven : List (List UInt8) → List UInt8 → Prop where
  | gap {chars : List UInt8} (quiet : Quiet chars) : Woven [] chars
  | string {chars word rest : List UInt8} {words : List (List UInt8)} (quiet : Quiet chars)
      (plain : Quiet word)
      (later : Woven words rest) (apart : words ≠ [] → Separated rest) :
      Woven (word :: words) (chars ++ (quoted word ++ rest))

theorem Quiet.append {front back : List UInt8} (first : Quiet front) (second : Quiet back) :
    Quiet (front ++ back) := by
  intro char inside
  cases List.mem_append.mp inside with
  | inl inFront => exact first char inFront
  | inr inBack => exact second char inBack

theorem Separated.append {bytes : List UInt8} (separated : Separated bytes) (more : List UInt8) :
    Separated (bytes ++ more) := by
  obtain ⟨front, sep, back, rfl, quiet, isSep⟩ := separated
  exact ⟨front, sep, back ++ more, by simp, quiet, isSep⟩

namespace Woven

variable {words others : List (List UInt8)} {bytes more chars : List UInt8}

theorem noNul (woven : Woven words bytes) : ∀ char ∈ bytes, char ≠ 0 := by
  have quote : ∀ char ∈ text "\"", char ≠ 0 := all_chars (by decide)
  induction woven with
  | gap quiet => exact fun char inside => (quiet char inside).1
  | string quiet plain _ _ inductionHypothesis =>
    simp only [quoted, List.mem_append]
    rintro char (inGap | (opening | inWord | closing) | later)
    · exact (quiet char inGap).1
    · exact quote char opening
    · exact (plain char inWord).1
    · exact quote char closing
    · exact inductionHypothesis char later

theorem behind (quiet : Quiet chars) (woven : Woven words bytes) :
    Woven words (chars ++ bytes) := by
  cases woven with
  | gap own => exact .gap (quiet.append own)
  | string own plain later apart =>
    rw [← List.append_assoc]
    exact .string (quiet.append own) plain later apart

theorem append (woven : Woven words bytes) (quiet : Quiet chars) :
    Woven words (bytes ++ chars) := by
  induction woven with
  | gap own => exact .gap (own.append quiet)
  | string own plain _ apart inductionHypothesis =>
    rw [List.append_assoc, List.append_assoc]
    exact .string own plain inductionHypothesis fun some => (apart some).append chars

/-- Texts on both sides of a separator. -/
theorem weave {sep : UInt8} (first : Woven words bytes) (isSep : sep = 44 ∨ sep = 58)
    (second : Woven others more) :
    Woven (words ++ others) (bytes ++ sep :: more) := by
  have quietSep : Quiet [sep] := by
    rcases isSep with rfl | rfl <;> simp [Quiet]
  induction first with
  | gap quiet =>
    have joined := second.behind (quiet.append quietSep)
    rwa [List.append_assoc] at joined
  | @string _ _ rest words own plain later apart inductionHypothesis =>
    rw [List.append_assoc, List.append_assoc]
    refine .string own plain inductionHypothesis fun _ => ?_
    cases later with
    | gap quiet => exact ⟨_, sep, more, rfl, quiet, isSep⟩
    | string own' plain' later' apart' => exact (apart (List.cons_ne_nil _ _)).append _

end Woven

/-! ## Every text is woven from its strings -/

theorem Blank.quiet (blank : Blank) : Quiet blank.1 := by
  have each : ∀ char ∈ text " \t\n\r", char ≠ 0 ∧ char ≠ 34 := all_chars (by decide)
  exact fun char inside => each char (blank.2 char inside)

theorem Plain.quiet (plain : Plain) : Quiet plain.1 := by
  intro char inside
  obtain ⟨printable, unquoted, -⟩ := plain.2 char inside
  refine ⟨?_, unquoted⟩
  rintro rfl
  exact absurd printable (by decide)

theorem Digits.quiet (digits : Digits) : Quiet digits.1 := by
  have each : ∀ char ∈ text "0123456789", char ≠ 0 ∧ char ≠ 34 := all_chars (by decide)
  exact fun char inside => each char (digits.2.2 char inside)

theorem quiet_text {literal : String}
    (computed : (text literal).all (fun char => char ≠ 0 ∧ char ≠ 34) = true) :
    Quiet (text literal) :=
  all_chars computed

theorem quiet_nil : Quiet [] := by simp [Quiet]

theorem Exponent.quiet (exponent : Exponent) : Quiet exponent.bytes := by
  obtain ⟨capital, minus, digits⟩ := exponent
  refine Quiet.append ?_ (Quiet.append ?_ digits.quiet)
  · cases capital with
    | false => exact quiet_text (by decide)
    | true => exact quiet_text (by decide)
  · rcases minus with _ | _ | _
    · exact quiet_nil
    · exact quiet_text (by decide)
    · exact quiet_text (by decide)

theorem Number.quiet (number : Number) : Quiet number.bytes := by
  obtain ⟨minus, whole, -, frac, exponent⟩ := number
  refine Quiet.append ?_ (whole.quiet.append (Quiet.append ?_ ?_))
  · cases minus with
    | false => exact quiet_nil
    | true => exact quiet_text (by decide)
  · cases frac with
    | none => exact quiet_nil
    | some digits => exact (quiet_text (by decide)).append digits.quiet
  · cases exponent with
    | none => exact quiet_nil
    | some exponent => exact exponent.quiet

theorem Literal.quiet (literal : Literal) : Quiet literal.bytes := by
  cases literal with
  | null => exact quiet_text (by decide)
  | bool value =>
    cases value with
    | false => exact quiet_text (by decide)
    | true => exact quiet_text (by decide)
  | number value => exact value.quiet

theorem Woven.word (plain : Plain) {words : List (List UInt8)} {bytes : List UInt8}
    (later : Woven words bytes) (apart : words ≠ [] → Separated bytes) :
    Woven (plain.1 :: words) (quoted plain.1 ++ bytes) :=
  .string quiet_nil plain.quiet later apart

theorem comma : text "," = [44] := by decide

theorem colon : text ":" = [58] := by decide

mutual

theorem Value.woven : ∀ value : Value, Woven value.strings value.bytes
  | .literal value => by
    rw [Value.strings, Value.bytes]
    exact .gap value.quiet
  | .string chars => by
    rw [Value.strings, Value.bytes]
    simpa using Woven.word chars (.gap quiet_nil) (by simp)
  | .array blank elements => by
    rw [Value.strings, Value.bytes]
    exact ((elements_woven elements).append (quiet_text (by decide))).behind blank.quiet |>.behind
      (quiet_text (by decide))
  | .object blank entries => by
    rw [Value.strings, Value.bytes]
    exact ((entries_woven entries).append (quiet_text (by decide))).behind blank.quiet |>.behind
      (quiet_text (by decide))

theorem elements_woven :
    ∀ elements, Woven (elementStrings elements) ((text ",").intercalate (elementBytes elements))
  | [] => .gap quiet_nil
  | ⟨front, value, back⟩ :: elements => by
    have first := (value.woven.append back.quiet).behind front.quiet
    have rest := elements_woven elements
    rw [elementStrings, elementBytes]
    cases elements with
    | nil => simpa [elementStrings, elementBytes] using first
    | cons next elements =>
      rw [List.intercalate_cons_of_ne_nil (by simp [elementBytes]), comma, List.append_assoc]
      exact first.weave (Or.inl rfl) (comma ▸ rest)

theorem entries_woven :
    ∀ entries, Woven (entryStrings entries) ((text ",").intercalate (entryBytes entries))
  | [] => .gap quiet_nil
  | ⟨front, key, beforeColon, behindColon, value, back⟩ :: entries => by
    have key := (Woven.word key (.gap beforeColon.quiet) (by simp)).behind front.quiet
    have first := key.weave (Or.inr rfl) ((value.woven.append back.quiet).behind behindColon.quiet)
    have rest := entries_woven entries
    rw [entryStrings, entryBytes]
    cases entries with
    | nil => simpa [entryStrings, entryBytes, colon] using first
    | cons next entries =>
      rw [List.intercalate_cons_of_ne_nil (by simp [entryBytes]), comma]
      simpa [colon] using first.weave (Or.inl rfl) (comma ▸ rest)

end

theorem Entry.woven (entry : Entry Value) :
    Woven (entry.key.1 :: entry.value.strings) entry.bytes := by
  have alone := entries_woven [entry]
  rw [entryBytes_eq] at alone
  simpa [entryStrings] using alone

/-- Members with a comma behind each. -/
theorem entries_front_woven (entries : List (Entry Value)) :
    Woven (entryStrings entries) ((entries.map Entry.bytes).flatMap (· ++ text ",")) := by
  induction entries with
  | nil => exact .gap quiet_nil
  | cons entry entries inductionHypothesis =>
    have joined := entry.woven.weave (Or.inl rfl) inductionHypothesis
    simpa [entryStrings, comma] using joined

/-! ## Where a quoted word occurs -/

/-- A quote is either the first one or behind it. -/
theorem quote_at {chars tail more : List UInt8} {i : Nat} (quiet : Quiet chars)
    (occurs : 34 :: tail <+: (chars ++ 34 :: more).drop i) :
    (i = chars.length ∧ tail <+: more) ∨ ∃ k, i = chars.length + 1 + k ∧
      34 :: tail <+: more.drop k := by
  induction chars generalizing i with
  | nil =>
    cases i with
    | zero => exact Or.inl ⟨rfl, (List.cons_prefix_cons.mp occurs).2⟩
    | succ k => exact Or.inr ⟨k, by simp [Nat.add_comm], by simpa using occurs⟩
  | cons char chars inductionHypothesis =>
    cases i with
    | zero =>
      have quote : 34 = char := (List.cons_prefix_cons.mp occurs).1
      exact absurd quote.symm (quiet char List.mem_cons_self).2
    | succ i =>
      have quietRest : Quiet chars := fun other inside =>
        quiet other (List.mem_cons_of_mem _ inside)
      rcases inductionHypothesis quietRest (by simpa using occurs) with
        ⟨rfl, here⟩ | ⟨k, rfl, later⟩
      · exact Or.inl ⟨rfl, here⟩
      · exact Or.inr ⟨k, by rw [List.length_cons]; omega, later⟩

/-- What stands in front of the first quote. -/
theorem takeWhile_quiet {word : List UInt8} (quiet : Quiet word) (back : List UInt8) :
    (word ++ 34 :: back).takeWhile (· ≠ 34) = word :=
  takeWhile_front (fun char inside => by simpa using (quiet char inside).2) (by simp)

theorem quoted_cons (word bytes : List UInt8) :
    quoted word ++ bytes = 34 :: (word ++ 34 :: bytes) := by
  have quote : text "\"" = [34] := by decide
  simp [quoted, quote]

/-- Up to the next quote, a text that is separated has a comma or a colon. -/
theorem Separated.inside {bytes word : List UInt8} (separated : Separated bytes)
    (quiet : Quiet word) (front : word ++ [34] <+: bytes) : 44 ∈ word ∨ 58 ∈ word := by
  obtain ⟨gap, sep, back, rfl, quietGap, isSep⟩ := separated
  obtain ⟨behind, split⟩ := front
  have same := congrArg (List.takeWhile (· ≠ 34)) split
  have unquoted : ∀ char ∈ gap, decide (char ≠ 34) = true :=
    fun char inside => decide_eq_true (quietGap char inside).2
  have sepUnquoted : decide (sep ≠ 34) = true := by rcases isSep with rfl | rfl <;> decide
  rw [List.append_assoc, List.singleton_append, takeWhile_quiet quiet,
    List.takeWhile_append_of_pos unquoted, List.takeWhile_cons, if_pos sepUnquoted] at same
  rw [same]
  rcases isSep with rfl | rfl
  · exact Or.inl (by simp)
  · exact Or.inr (by simp)

theorem Woven.occurs_mem {words : List (List UInt8)} {bytes word : List UInt8} {i : Nat}
    (woven : Woven words bytes) (quiet : Quiet word) (unseparated : ¬ (44 ∈ word ∨ 58 ∈ word))
    (occurs : quoted word <+: bytes.drop i) :
    word ∈ words := by
  have form : quoted word = 34 :: (word ++ [34]) := by simpa using quoted_cons word []
  rw [form] at occurs
  induction woven generalizing i with
  | @gap chars own =>
    have quote : 34 ∈ chars := List.mem_of_mem_drop (occurs.subset List.mem_cons_self)
    exact absurd rfl (own 34 quote).2
  | @string chars other rest words own plain later apart inductionHypothesis =>
    rw [quoted_cons] at occurs
    rcases quote_at own occurs with ⟨-, opening⟩ | ⟨k, -, behind⟩
    · -- at the opening quote the words are the same
      obtain ⟨back, split⟩ := opening
      have same := congrArg (List.takeWhile (· ≠ 34)) split
      rw [List.append_assoc, List.singleton_append, takeWhile_quiet quiet,
        takeWhile_quiet plain] at same
      exact List.mem_cons.mpr (Or.inl same)
    · rcases quote_at plain behind with ⟨-, closing⟩ | ⟨k, -, further⟩
      · -- at the closing quote the word would hold what separates two strings
        cases later with
        | gap quietRest =>
          have quote : 34 ∈ rest := closing.subset (by simp)
          exact absurd rfl (quietRest 34 quote).2
        | string own' plain' later' apart' =>
          exact absurd ((apart (List.cons_ne_nil _ _)).inside quiet closing) unseparated
      · exact List.mem_cons_of_mem _ (inductionHypothesis further)

theorem Woven.mem_occurs {words : List (List UInt8)} {bytes word : List UInt8}
    (woven : Woven words bytes) (member : word ∈ words) : ∃ i, quoted word <+: bytes.drop i := by
  induction woven with
  | gap => simp at member
  | @string chars other rest words _ _ _ _ inductionHypothesis =>
    cases List.mem_cons.mp member with
    | inl same =>
      refine ⟨chars.length, ?_⟩
      rw [List.drop_left, same]
      exact List.prefix_append _ _
    | inr later =>
      obtain ⟨i, occurs⟩ := inductionHypothesis later
      refine ⟨(chars ++ quoted other).length + i, ?_⟩
      rwa [← List.append_assoc, ← List.drop_drop, List.drop_left]

end NuLab.JsonText
