import NuLab.Json.Dropped
import NuLab.Lib.JsonText

/-! # The value of a member

The lookup takes the first place where the quoted word stands, whatever it is there.  It
answers with the value of a member of the object exactly when that place is the member's
key, when the value has a digit, and when no carriage return stands in front of it: the
other characters of JSON whitespace are skipped, that one is not.
-/

namespace NuLab.Json

open NuLab.CString NuLab.JsonText

/-! ## Objects with a member -/

def HexString : Type := { chars : List UInt8 // ∀ char ∈ chars, char ∈ hexDigits }

theorem HexString.plain (value : HexString) :
    ∀ char ∈ value.1, 32 ≤ char ∧ char ≠ 34 ∧ char ≠ 92 := by
  have each : ∀ char ∈ hexDigits, 32 ≤ char ∧ char ≠ 34 ∧ char ≠ 92 := all_chars (by decide)
  exact fun char inside => each char (value.2 char inside)

/-- An object text with a member whose value is a string of hex digits. -/
structure Lookup where
  lead : Blank
  blank : Blank
  before : List (Entry Value)
  member : Entry HexString
  behind : List (Entry Value)
  trail : Blank

namespace Lookup

variable (lookup : Lookup)

/-- The member among the others. -/
def entry : Entry Value where
  front := lookup.member.front
  key := lookup.member.key
  beforeColon := lookup.member.beforeColon
  behindColon := lookup.member.behindColon
  value := .string ⟨lookup.member.value.1, lookup.member.value.plain⟩
  back := lookup.member.back

def bytes : List UInt8 :=
  lookup.lead.1 ++
    ((Value.object lookup.blank (lookup.before ++ lookup.entry :: lookup.behind)).bytes ++
    lookup.trail.1)

/-- What stands in front of the member's key. -/
def front : List UInt8 :=
  lookup.lead.1 ++ (text "\x7b" ++ (lookup.blank.1 ++
    ((lookup.before.map Entry.bytes).flatMap (· ++ text ",") ++ lookup.member.front.1)))

/-- The tag that is looked for, which is the member's key. -/
def tag : List UInt8 := quoted lookup.member.key.1

/-- What stands between the key and the first digit. -/
def between : List UInt8 := lookup.member.between ++ text "\""

/-- Where the digits of the member are. -/
def valueSpan : NuCspan :=
  let beg := lookup.front.length + lookup.tag.length + lookup.between.length
  ⟨beg, beg + lookup.member.value.1.length⟩

theorem bytes_split : ∃ rest, lookup.bytes =
    lookup.front ++
      (lookup.tag ++ (lookup.between ++ (lookup.member.value.1 ++ (text "\"" ++ rest)))) := by
  refine ⟨lookup.member.back.1 ++ ((lookup.behind.map Entry.bytes).flatMap (text "," ++ ·) ++
    (text "\x7d" ++ lookup.trail.1)), ?_⟩
  rw [bytes, Value.bytes, entryBytes_eq, List.map_append, List.map_cons, intercalate_split]
  simp only [front, tag, between, entry, Entry.bytes, Entry.between, Value.bytes, quoted,
    List.append_assoc]

theorem noNul : ∀ char ∈ lookup.bytes, char ≠ 0 :=
  ((Value.woven _).append lookup.trail.quiet |>.behind lookup.lead.quiet).noNul

/-- The last token in front of the key is a bracket or a comma. -/
theorem front_split :
    ∃ stem sep blanks, lookup.front = stem ++ sep :: blanks ∧
      (sep = 123 ∨ sep = 44) ∧ Quiet blanks ∧
    (sep = 123 → Quiet stem) := by
  have bracket : text "\x7b" = [123] := by decide
  rcases List.eq_nil_or_concat lookup.before with none | ⟨others, last, some⟩
  · refine ⟨lookup.lead.1, 123, lookup.blank.1 ++ lookup.member.front.1, ?_, Or.inl rfl,
      lookup.blank.quiet.append lookup.member.front.quiet, fun _ => lookup.lead.quiet⟩
    simp [front, none, bracket]
  · refine ⟨lookup.lead.1 ++
      (text "\x7b" ++ (lookup.blank.1 ++ ((others.map Entry.bytes).flatMap (· ++ text ",") ++
      last.bytes))), 44, lookup.member.front.1, ?_, Or.inr rfl, lookup.member.front.quiet, ?_⟩
    · simp [front, some, comma]
    · exact fun same => absurd same (by decide)

end Lookup

/-! ## Other places of the tag -/

section

variable {memory stem blanks word rest : List UInt8} {sep : UInt8} {i : Nat}

theorem quoted_length (word : List UInt8) : (quoted word).length = word.length + 2 := by
  have form := congrArg List.length (quoted_cons word [])
  simpa using form

/-- The characters of a quoted word where it occurs. -/
theorem quoted_at (occurs : quoted word <+: memory.drop i) :
    memory[i]? = some 34 ∧ memory[i + (word.length + 1)]? = some 34 ∧
      ∀ k < word.length, memory[i + (k + 1)]? = word[k]? := by
  have form : quoted word = 34 :: (word ++ [34]) := by simpa using quoted_cons word []
  have length := quoted_length word
  refine ⟨?_, ?_, fun k inside => ?_⟩
  · simpa [form] using occurs_at occurs (k := 0) (by omega)
  · rw [occurs_at occurs (by omega), form, List.getElem?_cons_succ]
    simp
  · rw [occurs_at occurs (by omega), form, List.getElem?_cons_succ,
      List.getElem?_append_left inside]

theorem occurs_key (here : memory = stem ++ sep :: (blanks ++ (quoted word ++ rest))) :
    quoted word <+: memory.drop (stem.length + 1 + blanks.length) := by
  have front : memory.drop (0 + (stem ++ sep :: blanks).length) = quoted word ++ rest :=
    drop_behind (by simpa using here)
  have length : 0 + (stem ++ sep :: blanks).length = stem.length + 1 + blanks.length := by
    rw [List.length_append, List.length_cons]
    omega
  rw [← length, front]
  exact List.prefix_append _ _

/-- A tag that occurs in front of the key ends in front of the token before the key, or with
the key's first quote. -/
theorem occurs_before (here : memory = stem ++ sep :: (blanks ++ (quoted word ++ rest)))
    (noQuote : sep ≠ 34) (blank : Quiet blanks) (plain : Quiet word)
    (before : i < stem.length + 1 + blanks.length) (occurs : quoted word <+: memory.drop i) :
    i + (quoted word).length ≤ stem.length ∨
      (i + (quoted word).length = stem.length + 1 + blanks.length + 1 ∧ sep ∈ word) := by
  obtain ⟨opening, closing, letters⟩ := quoted_at occurs
  have keyQuote := (quoted_at (occurs_key here)).1
  have token : memory[stem.length]? = some sep := by simp [here]
  -- the tag begins and ends with a quote, and from the token before the key up to the key there is
  -- none
  have noQuoteBetween : ∀ p, stem.length ≤ p → p < stem.length + 1 + blanks.length →
      memory[p]? ≠ some 34 := by
    intro p behind ahead quote
    have quiet : ∀ char ∈ sep :: blanks, char ≠ 34 :=
      List.forall_mem_cons.mpr ⟨noQuote, fun char inside => (blank char inside).2⟩
    rw [here, List.getElem?_append_right behind, ← List.cons_append,
      List.getElem?_append_left (by rw [List.length_cons]; omega)] at quote
    exact quiet 34 (List.mem_of_getElem? quote) rfl
  have ahead : i < stem.length := by
    by_contra behind
    exact noQuoteBetween i (Nat.not_lt.mp behind) before opening
  rw [quoted_length]
  by_cases ended : i + (word.length + 1) < stem.length
  · left
    omega
  · right
    have reaches : stem.length + 1 + blanks.length ≤ i + (word.length + 1) := by
      by_contra short
      exact noQuoteBetween _ (Nat.not_lt.mp ended) (Nat.not_le.mp short) closing
    constructor
    · by_contra further
      have letter := letters (stem.length + blanks.length - i) (by omega)
      rw [show i + (stem.length + blanks.length - i + 1) =
        stem.length + 1 + blanks.length by omega, keyQuote] at letter
      exact (plain 34 (List.mem_of_getElem? letter.symm)).2 rfl
    · have letter := letters (stem.length - i - 1) (by omega)
      rw [show i + (stem.length - i - 1 + 1) = stem.length by omega, token] at letter
      exact List.mem_of_getElem? letter.symm

/-- The lookup goes behind the key from no other place in front of it. -/
theorem occurrence_unique (here : memory = stem ++ sep :: (blanks ++ (quoted word ++ rest)))
    (isSep : sep = 123 ∨ sep = 44) (blank : Quiet blanks) (plain : Quiet word)
    (order : i ≤ stem.length + 1 + blanks.length) (occurs : quoted word <+: memory.drop i)
    (reaches : stem.length + 1 + blanks.length + (quoted word).length ≤
      (spanBehind memory (i + (quoted word).length)).beg) :
      i = stem.length + 1 + blanks.length := by
  have noQuote : sep ≠ 34 := by rcases isSep with rfl | rfl <;> decide
  have notSkipped : sep ∉ text "\": \n\t" := by rcases isSep with rfl | rfl <;> decide
  have length := quoted_length word
  -- the token in front of the key, or its like in the key, stops the skipping
  have stops : ∀ p, memory[p]? = some sep → i + (quoted word).length ≤ p →
      stem.length + 1 + blanks.length + (quoted word).length ≤ p := by
    intro p token behind
    by_contra short
    have before : p < (spanBehind memory (i + (quoted word).length)).beg := by omega
    obtain ⟨char, same, skipped⟩ := skipped_at behind before
    rw [token, Option.some.injEq] at same
    exact notSkipped (same ▸ skipped)
  by_contra other
  rcases occurs_before here noQuote blank plain (by omega) occurs with front | ⟨ended, inside⟩
  · have := stops stem.length (by simp [here]) front
    omega
  · obtain ⟨k, inWord, letter⟩ := List.mem_iff_getElem.mp inside
    have inKey := (quoted_at (occurs_key here)).2.2 k inWord
    rw [List.getElem?_eq_getElem inWord, letter] at inKey
    have := stops _ inKey (by omega)
    omega

end

/-! ## The answer -/

namespace Lookup

variable (lookup : Lookup)

/-- The quoted word does not occur in front of the member's key. -/
def First : Prop := ∀ i < lookup.front.length, ¬ lookup.tag <+: lookup.bytes.drop i

/-- Between the key and the value there is no carriage return. -/
def Returnless : Prop := 13 ∉ lookup.member.beforeColon.1 ++ lookup.member.behindColon.1

theorem plain_key : Quiet lookup.member.key.1 := lookup.member.key.quiet

theorem length_front {stem blanks : List UInt8} {sep : UInt8}
    (split : lookup.front = stem ++ sep :: blanks) :
    lookup.front.length = stem.length + 1 + blanks.length := by
  rw [split, List.length_append, List.length_cons]
  omega

theorem at_key : ∃ rest, lookup.bytes.drop lookup.front.length =
    lookup.tag ++ (lookup.between ++ (lookup.member.value.1 ++ (text "\"" ++ rest))) := by
  obtain ⟨rest, split⟩ := lookup.bytes_split
  exact ⟨rest, by rw [split, List.drop_left]⟩

theorem tag_at_key : lookup.tag <+: lookup.bytes.drop lookup.front.length := by
  obtain ⟨rest, key⟩ := lookup.at_key
  rw [key]
  exact List.prefix_append _ _

theorem valueSpan_inside : lookup.valueSpan.fin ≤ lookup.bytes.length := by
  obtain ⟨rest, split⟩ := lookup.bytes_split
  have length := congrArg List.length split
  simp only [List.length_append] at length
  dsimp only [valueSpan]
  omega

theorem slice_valueSpan : slice lookup.bytes lookup.valueSpan = lookup.member.value.1 := by
  obtain ⟨rest, key⟩ := lookup.at_key
  rw [slice, valueSpan, drop_behind (drop_behind key), Nat.add_sub_cancel_left, List.take_left]

/-- Of the whitespace of JSON, the carriage return is what is not skipped. -/
theorem between_skipped_iff :
    (∀ char ∈ lookup.between, char ∈ text "\": \n\t") ↔ lookup.Returnless := by
  have notReturn : ∀ char ∈ text " \t\n\r", char ≠ 13 → char ∈ text "\": \n\t" :=
    all_chars (by decide)
  have skippedColon : ∀ char ∈ text ":", char ∈ text "\": \n\t" := all_chars (by decide)
  have skippedQuote : ∀ char ∈ text "\"", char ∈ text "\": \n\t" := all_chars (by decide)
  simp only [between, Entry.between, Returnless, List.mem_append, not_or]
  constructor
  · intro skipped
    exact ⟨fun before => absurd (skipped 13 (Or.inl (Or.inl before))) (by decide),
      fun behind => absurd (skipped 13 (Or.inl (Or.inr (Or.inr behind)))) (by decide)⟩
  · rintro ⟨none, noneBehind⟩ char ((before | colon | behind) | quote)
    · exact notReturn char (lookup.member.beforeColon.2 char before)
        (by rintro rfl; exact none before)
    · exact skippedColon char colon
    · exact notReturn char (lookup.member.behindColon.2 char behind)
        (by rintro rfl; exact noneBehind behind)
    · exact skippedQuote char quote

/-- The member's value is behind no tag but its key, and behind that only if there is
no occurrence before. -/
theorem answered_at_key
    (answered : jsonFindTagValue lookup.bytes ⟨0, lookup.bytes.length⟩ lookup.tag =
      some lookup.valueSpan) :
    lookup.First ∧ spanBehind lookup.bytes (lookup.front.length + lookup.tag.length) =
      lookup.valueSpan := by
  obtain ⟨i, found, value, -⟩ := (jsonFindTagValue_iff _ _ _ _).mp answered
  obtain ⟨occurs, first⟩ := strstr_spec lookup.noNul found
  have order : i ≤ lookup.front.length := by
    by_contra later
    exact first _ (Nat.zero_le _) (Nat.not_le.mp later) lookup.tag_at_key
  have reaches : lookup.front.length + lookup.tag.length ≤
      (spanBehind lookup.bytes (i + lookup.tag.length)).beg := by
    rw [value]
    exact Nat.le_add_right _ _
  obtain ⟨rest, split⟩ := lookup.bytes_split
  obtain ⟨stem, sep, blanks, frontSplit, isSep, blank, -⟩ := lookup.front_split
  have same : i = lookup.front.length := by
    rw [frontSplit, List.append_assoc, List.cons_append] at split
    rw [lookup.length_front frontSplit] at order reaches ⊢
    exact occurrence_unique split isSep blank lookup.plain_key order occurs reaches
  subst same
  -- `strstr` finds the first occurrence
  exact ⟨fun j before => first j (Nat.zero_le j) before, value⟩

/-- Skipping from the key ends at the first digit only if there is one and no carriage
return is in between. -/
theorem value_behind_key
    (value : spanBehind lookup.bytes (lookup.front.length + lookup.tag.length) = lookup.valueSpan) :
    lookup.Returnless ∧ lookup.member.value.1 ≠ [] := by
  obtain ⟨rest, key⟩ := lookup.at_key
  have behindKey := drop_behind key
  have beginning := congrArg NuCspan.beg value
  dsimp only [valueSpan] at beginning
  have skipped : ∀ char ∈ lookup.between, char ∈ text "\": \n\t" := by
    intro char inside
    obtain ⟨k, bound, letter⟩ := List.mem_iff_getElem.mp inside
    have before : lookup.front.length + lookup.tag.length + k <
      (spanBehind lookup.bytes (lookup.front.length + lookup.tag.length)).beg := by omega
    obtain ⟨other, there, skipped⟩ := skipped_at (Nat.le_add_right _ k) before
    have here := occurs_at (behindKey ▸ List.prefix_append _ _) bound
    rw [List.getElem?_eq_getElem bound, letter, there] at here
    exact Option.some.inj here ▸ skipped
  refine ⟨lookup.between_skipped_iff.mp skipped, fun empty => ?_⟩
  -- without a digit, the quote that ends the value is skipped as well
  rw [empty, List.nil_append, ← List.append_assoc] at behindKey
  have quote : ∀ char ∈ text "\"", char ∈ text "\": \n\t" := all_chars (by decide)
  have further := strspn_ge lookup.noNul behindKey (List.forall_mem_append.mpr ⟨skipped, quote⟩)
  have one : (text "\"").length = 1 := by decide
  rw [List.length_append, one] at further
  simp only [spanBehind] at beginning
  omega

end Lookup

/-- The strings in front of the member's key -/
def Lookup.strings (lookup : Lookup) : List (List UInt8) := entryStrings lookup.before

/-- A key without a comma and a colon occurs first where no key and no string in front
of it is the same word. -/
theorem Lookup.first_iff (lookup : Lookup)
    (unseparated : ¬ (44 ∈ lookup.member.key.1 ∨ 58 ∈ lookup.member.key.1)) :
    lookup.First ↔ lookup.member.key.1 ∉ lookup.strings := by
  obtain ⟨rest, split⟩ := lookup.bytes_split
  have woven : Woven lookup.strings lookup.front :=
    (((entries_front_woven lookup.before).append lookup.member.front.quiet).behind
      lookup.blank.quiet |>.behind
      (quiet_text (by decide))).behind lookup.lead.quiet
  have dropped : ∀ i ≤ lookup.front.length, lookup.front.drop i <+: lookup.bytes.drop i := by
    intro i inside
    rw [split, List.drop_append_of_le_length inside]
    exact List.prefix_append _ _
  constructor
  · intro first member
    obtain ⟨i, occurs⟩ := woven.mem_occurs member
    have before : i < lookup.front.length := by
      have room := occurs.length_le
      rw [quoted_length, List.length_drop] at room
      omega
    exact first i before (occurs.trans (dropped i (Nat.le_of_lt before)))
  · intro absent i before occurs
    obtain ⟨stem, sep, blanks, frontSplit, isSep, blank, bracket⟩ := lookup.front_split
    have keyAt := lookup.length_front frontSplit
    have noQuote : sep ≠ 34 := by rcases isSep with rfl | rfl <;> decide
    rw [frontSplit, List.append_assoc, List.cons_append] at split
    rcases occurs_before split noQuote blank lookup.plain_key (by omega) occurs with
      ended | ⟨-, inside⟩
    · -- the word lies in front of the key
      have room : (quoted lookup.member.key.1).length ≤ (lookup.front.drop i).length := by
        rw [List.length_drop]
        omega
      have within := List.prefix_of_prefix_length_le occurs (dropped i (Nat.le_of_lt before)) room
      exact absent (woven.occurs_mem lookup.plain_key unseparated within)
    · rcases isSep with rfl | rfl
      · -- in front of the first member there is no quote
        have quote := (quoted_at occurs).1
        rw [split, ← List.cons_append, ← List.append_assoc, ← frontSplit,
          List.getElem?_append_left before, frontSplit] at quote
        have quiet : Quiet (stem ++ 123 :: blanks) := (bracket rfl).append
          (List.forall_mem_cons.mpr ⟨by decide, blank⟩)
        exact (quiet 34 (List.mem_of_getElem? quote)).2 rfl
      · exact unseparated (Or.inl inside)

/-- The lookup answers with the member's value where the quoted word occurs first as its key, and
nothing but what is skipped stands between the key and at least one digit. -/
theorem jsonFindTagValue_member_iff (lookup : Lookup) :
    jsonFindTagValue lookup.bytes ⟨0, lookup.bytes.length⟩ lookup.tag = some lookup.valueSpan ↔
      lookup.First ∧ lookup.Returnless ∧ lookup.member.value.1 ≠ [] := by
  constructor
  · intro answered
    obtain ⟨first, value⟩ := lookup.answered_at_key answered
    exact ⟨first, lookup.value_behind_key value⟩
  · rintro ⟨first, returnless, nonempty⟩
    obtain ⟨rest, key⟩ := lookup.at_key
    have inside := lookup.valueSpan_inside
    dsimp only [Lookup.valueSpan] at inside
    have found := strstr_first lookup.noNul (Nat.zero_le _) (by omega) lookup.tag_at_key
      fun j _ before => first j before
    exact find_value lookup.noNul found key (lookup.between_skipped_iff.mpr returnless)
      lookup.member.value.2 nonempty
      inside

def noBlank : Blank := ⟨[], by simp⟩

/-- `\x7b"capabilities":["target"],"target":"ff"\x7d` -/
def listedTarget : Lookup where
  lead := noBlank
  blank := noBlank
  before :=
    [{ front := noBlank
       key := ⟨text "capabilities", all_chars (by decide)⟩
       beforeColon := noBlank
       behindColon := noBlank
       value := .array noBlank [⟨noBlank, .string ⟨text "target", all_chars (by decide)⟩, noBlank⟩]
       back := noBlank }]
  member :=
    { front := noBlank
      key := ⟨text "target", all_chars (by decide)⟩
      beforeColon := noBlank
      behindColon := noBlank
      value := ⟨text "ff", all_chars (by decide)⟩
      back := noBlank }
  behind := []
  trail := noBlank

/-- The value is `ff`; what is found behind the element of the array is its bracket. -/
theorem listedTarget_bracket :
    listedTarget.bytes = text "\x7b\"capabilities\":[\"target\"],\"target\":\"ff\"\x7d" ∧
      slice listedTarget.bytes listedTarget.valueSpan = text "ff" ∧
      (jsonFindTagValue listedTarget.bytes ⟨0, listedTarget.bytes.length⟩ listedTarget.tag).map
        (slice listedTarget.bytes) = some (text "]") := by decide

end NuLab.Json
