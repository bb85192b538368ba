import NuLab.Builder.Code

/-! # `parse_opts`

A command line is accepted exactly if it is a list of keys with their values, and the last
value of a key counts.  What is in the place of a value is not looked at, not even if
it is a key.
-/

namespace NuLab.Builder

open NuLab.CString NuLab.Numeral

/-- Keys with their values, as they stand on a command line. -/
def written (pairs : List (Key × List UInt8)) : List (List UInt8) :=
  pairs.flatMap fun (key, val) => [key.name, val]

def lastValue (pairs : List (Key × List UInt8)) (key : Key) : Option (List UInt8) :=
  (pairs.findRev? (·.1 = key)).map Prod.snd

/-- The options that a list of keys and values stands for. -/
def chosen (pairs : List (Key × List UInt8)) : Options where
  prevBlockHash := lastValue pairs .pb
  timestamp := ((lastValue pairs .time).map fun val => (strtoul val 0 10).toUInt32).getD 0
  bits := ((lastValue pairs .bits).map fun val => (strtoul val 0 16).toUInt32).getD 0
  obin := lastValue pairs .obin
  ohex := lastValue pairs .ohex

theorem keyOf_name (key : Key) : keyOf key.name = some key := by
  cases key
  all_goals decide

theorem name_of_keyOf {opt : List UInt8} {key : Key} (found : keyOf opt = some key) :
    key.name = opt := by
  simpa using List.find?_some found

/-! ## One option after the other -/

theorem parseArguments_pair (opts : Options) (key : Key) (val : List UInt8)
    (rest : List (List UInt8)) :
    parseArguments opts (key.name :: val :: rest) = parseArguments (key.assign opts val) rest := by
  conv_lhs => unfold parseArguments
  simp only [keyOf_name]

theorem parseArguments_pairs (opts : Options) (pairs : List (Key × List UInt8))
    (rest : List (List UInt8)) :
    parseArguments opts (written pairs ++ rest) =
      parseArguments (pairs.foldl (fun opts pair => pair.1.assign opts pair.2) opts) rest := by
  induction pairs generalizing opts with
  | nil => rfl
  | cons pair pairs inductionHypothesis =>
    obtain ⟨key, val⟩ := pair
    exact (parseArguments_pair opts key val _).trans (inductionHypothesis _)

theorem foldl_chosen (pairs : List (Key × List UInt8)) :
    pairs.foldl (fun opts pair => pair.1.assign opts pair.2) Options.zero = chosen pairs := by
  induction pairs using List.reverseRecOn with
  | nil => rfl
  | append_singleton pairs pair inductionHypothesis =>
    obtain ⟨key, val⟩ := pair
    rw [List.foldl_append, inductionHypothesis]
    cases key
    all_goals simp [chosen, lastValue, Key.assign]

/-! ## All options -/

/-- Why the loop stops in front of an argument. -/
inductive Refused (arguments : List (List UInt8)) : List UInt8 → Prop where
  | unknown {opt : List UInt8} {rest : List (List UInt8)} (next : arguments = opt :: rest)
      (key : keyOf opt = none) :
      Refused arguments (isUnknown opt)
  | requiresValue {key : Key} (last : arguments = [key.name]) :
      Refused arguments (requiresValue key.name)

theorem Refused.parse {arguments : List (List UInt8)} {message : List UInt8}
    (refused : Refused arguments message) (opts : Options) :
    parseArguments opts arguments = (1, opts, message) := by
  cases refused with
  | unknown next key =>
    subst next
    unfold parseArguments
    simp only [key]
  | requiresValue last =>
    subst last
    unfold parseArguments
    simp only [keyOf_name]

/-- The arguments are pairs up to the end, or up to one that is refused. -/
theorem arguments_split (arguments : List (List UInt8)) :
    (∃ pairs, arguments = written pairs) ∨
      ∃ pairs rest message, arguments = written pairs ++ rest ∧ Refused rest message := by
  induction arguments using List.twoStepInduction with
  | nil => exact Or.inl ⟨[], rfl⟩
  | singleton opt =>
    refine Or.inr ⟨[], [opt], ?_⟩
    cases found : keyOf opt with
    | none => exact ⟨_, rfl, .unknown rfl found⟩
    | some key => exact ⟨_, rfl, .requiresValue (by rw [name_of_keyOf found])⟩
  | cons_cons opt val rest inductionHypothesis _ =>
    cases found : keyOf opt with
    | none => exact Or.inr ⟨[], _, _, rfl, .unknown rfl found⟩
    | some key =>
      obtain rfl := name_of_keyOf found
      obtain ⟨pairs, rfl⟩ | ⟨pairs, stop, message, rfl, refused⟩ := inductionHypothesis
      · exact Or.inl ⟨(key, val) :: pairs, rfl⟩
      · exact Or.inr ⟨(key, val) :: pairs, stop, message, rfl, refused⟩

theorem parseOpts_rest (prog : List UInt8) (pairs : List (Key × List UInt8))
    (rest : List (List UInt8)) :
    parseOpts Options.zero (prog :: (written pairs ++ rest)) =
      parseArguments (chosen pairs) rest := by
  rw [← foldl_chosen]
  exact parseArguments_pairs Options.zero pairs rest

theorem parseOpts_written (prog : List UInt8) (pairs : List (Key × List UInt8)) :
    parseOpts Options.zero (prog :: written pairs) = (0, chosen pairs, []) := by
  have all := parseOpts_rest prog pairs []
  rw [List.append_nil] at all
  exact all

/-- What the program takes from any command line, or why it refuses it. -/
theorem parseOpts_arguments (prog : List UInt8) (arguments : List (List UInt8)) :
    (∃ pairs, arguments = written pairs ∧ parseOpts Options.zero (prog :: arguments) =
      (0, chosen pairs, [])) ∨
      ∃ pairs rest message, arguments = written pairs ++ rest ∧ Refused rest message ∧
        parseOpts Options.zero (prog :: arguments) = (1, chosen pairs, message) := by
  obtain ⟨pairs, rfl⟩ | ⟨pairs, rest, message, rfl, refused⟩ := arguments_split arguments
  · exact Or.inl ⟨pairs, rfl, parseOpts_written prog pairs⟩
  · refine Or.inr ⟨pairs, rest, message, rfl, refused, ?_⟩
    rw [parseOpts_rest, refused.parse]

end NuLab.Builder
