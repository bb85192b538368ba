import Mathlib.Data.List.Basic

/-! # Self-delimiting encodings

A parser consumes a part of its input and returns the rest.  `Reads p code a`
says that `p` takes exactly `code`, whatever follows it, and gets `a`; such codes
can be put one behind the other and never have to be separated.
-/

namespace NuLab.Parse

variable {β α γ : Type*}

abbrev Parser (β α : Type*) := List β → Option (α × List β)

def done (a : α) : Parser β α := fun input => some (a, input)

def andThen (first : Parser β α) (next : α → Parser β γ) : Parser β γ := fun input =>
  (first input).bind fun result => next result.1 result.2

def take (count : Nat) : Parser β (List β) := fun input =>
  if count ≤ input.length then some (input.take count, input.drop count) else none

def many (item : Parser β α) : Nat → Parser β (List α)
  | 0 => done []
  | count + 1 => andThen item fun first => andThen (many item count) fun others =>
    done (first :: others)

/-- Exactly these symbols. -/
def literal [DecidableEq β] (code : List β) : Parser β Unit :=
  andThen (take code.length) fun read => if read = code then done () else fun _ => none

def Reads (parser : Parser β α) (code : List β) (a : α) : Prop :=
  ∀ rest, parser (code ++ rest) = some (a, rest)

theorem reads_done (a : α) : Reads (done a : Parser β α) [] a := fun _ => rfl

theorem Reads.andThen {first : Parser β α} {next : α → Parser β γ} {code code' : List β} {a : α}
    {c : γ} (reads : Reads first code a) (reads' : Reads (next a) code' c) :
    Reads (andThen first next) (code ++ code') c := by
  intro rest
  rw [Parse.andThen, List.append_assoc, reads, Option.bind_some]
  exact reads' rest

theorem Reads.map {parser : Parser β α} {code : List β} {a : α} (reads : Reads parser code a)
    (f : α → γ) : Reads (Parse.andThen parser fun a => done (f a)) code (f a) := by
  have mapped : Reads (Parse.andThen parser fun a => done (f a)) (code ++ []) (f a) :=
    reads.andThen (reads_done (f a))
  rwa [List.append_nil] at mapped

theorem reads_take {count : Nat} {code : List β} (length : code.length = count) :
    Reads (take count) code code := by
  intro rest
  rw [take, if_pos (by rw [List.length_append]; omega), List.take_left' length,
    List.drop_left' length]

theorem reads_literal [DecidableEq β] (code : List β) : Reads (literal code) code () := by
  intro rest
  rw [literal, Parse.andThen, reads_take rfl rest, Option.bind_some, if_pos rfl]
  rfl

/-- Items one behind the other, when their number is known. -/
theorem reads_many {σ : Type*} {item : Parser β α} {code : σ → List β} {value : σ → α}
    (items : List σ) (reads : ∀ s ∈ items, Reads item (code s) (value s)) :
    Reads (many item items.length) (items.flatMap code) (items.map value) := by
  induction items with
  | nil => exact reads_done []
  | cons first items inductionHypothesis =>
    have others := inductionHypothesis fun s member => reads s (List.mem_cons_of_mem first member)
    exact (reads first List.mem_cons_self).andThen (others.map (value first :: ·))

/-- The code determines the value. -/
theorem Reads.unique {parser : Parser β α} {code : List β} {a b : α} (reads : Reads parser code a)
    (again : Reads parser code b) : a = b :=
  congrArg Prod.fst (Option.some.inj ((reads []).symm.trans (again [])))

/-- Equal inputs have equal values in front and equal rests. -/
theorem Reads.cancel {parser : Parser β α} {code code' rest rest' : List β} {a b : α}
    (reads : Reads parser code a) (again : Reads parser code' b)
    (same : code ++ rest = code' ++ rest') : a = b ∧ rest = rest' := by
  have read := reads rest
  rw [same, again, Option.some.injEq, Prod.mk.injEq] at read
  exact ⟨read.1.symm, read.2.symm⟩

end NuLab.Parse
