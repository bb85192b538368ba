import Mathlib.Data.List.Chain
import Mathlib.Logic.Function.Basic
import NuLab.Lib.Run

/-! # Two parties and two FIFO channels

A talk is a program that sends and receives before it ends with a result.  A
party makes one call after the other, each of which is a talk.  What it has sent
so far is what there is for the other party to receive.

A party goes by what it receives and never by when it comes.  So in every
interleaving it is where its run alone against the complete stream is after as
many steps.
-/

namespace NuLab

inductive Talk (β α : Type*) where
  | done (result : α)
  | send (bytes : List β) (rest : Talk β α)
  | recv (count : Nat) (rest : List β → Talk β α)

namespace Talk

variable {β α : Type*}

/-- The result, what has been sent and what is left, where `recv` gets as much as there is. -/
def play : Talk β α → List β → α × List β × List β
  | done result, incoming => (result, [], incoming)
  | send bytes rest, incoming =>
    let (result, sent, left) := play rest incoming
    (result, bytes ++ sent, left)
  | recv count rest, incoming => play (rest (incoming.take count)) (incoming.drop count)

structure Party (β α : Type*) where
  /-- What is left of the current call; `none` if there is no further call. -/
  talk : Option (Talk β α)
  results : List α
  sent : List β
  taken : Nat
  /-- The current call has neither sent nor received anything. -/
  idle : Bool

-- the call that follows these results
variable (again : List α → Option (Talk β α))

/-- `none` if the party has nothing to do or has to wait. -/
def Party.step (incoming : List β) (party : Party β α) : Option (Party β α) :=
  match party.talk with
  | none => none
  | some (done result) =>
    let results := party.results ++ [result]
    some ⟨again results, results, party.sent, party.taken, true⟩
  | some (send bytes rest) =>
    some ⟨some rest, party.results, party.sent ++ bytes, party.taken, false⟩
  | some (recv count rest) =>
    if party.taken + count ≤ incoming.length then
      some ⟨some (rest ((incoming.drop party.taken).take count)), party.results, party.sent,
        party.taken + count, false⟩
    else none

/-- One of the two parties takes a step. -/
def step (parties : Bool → Party β α) (mover : Bool) : Option (Bool → Party β α) :=
  ((parties mover).step again (parties !mover).sent).map (Function.update parties mover)

/-- So many steps of a party that finds the complete stream. -/
def Party.alone (incoming : List β) (party : Party β α) : Nat → Option (Party β α)
  | 0 => some party
  | count + 1 => (alone incoming party count).bind (Party.step again incoming)

/-! ## One party -/

variable {again}

/-- What is there to be received may only grow. -/
theorem Party.step_prefix {incoming stream : List β} {party next : Party β α}
    (front : incoming <+: stream) (stepped : party.step again incoming = some next) :
    party.step again stream = some next := by
  obtain ⟨more, rfl⟩ := front
  unfold Party.step at *
  cases talk : party.talk with
  | none => simp [talk] at stepped
  | some talk' =>
    simp only [talk] at stepped ⊢
    cases talk' with
    | done result => exact stepped
    | send bytes rest => exact stepped
    | recv count rest =>
      by_cases enough : party.taken + count ≤ incoming.length
      · have enough' : party.taken + count ≤ (incoming ++ more).length := by
          rw [List.length_append]; omega
        have bytes : ((incoming ++ more).drop party.taken).take count =
            (incoming.drop party.taken).take count := by
          rw [List.drop_append_of_le_length (by omega),
            List.take_append_of_le_length (by rw [List.length_drop]; omega)]
        simp only [enough, if_true] at stepped
        simp only [enough', if_true, bytes, stepped]
      · simp [enough] at stepped

/-- A step that is possible with the complete stream only waits for what it takes. -/
theorem Party.step_of_enough {incoming stream : List β} {party next : Party β α}
    (stepped : party.step again stream = some next) (enough : next.taken ≤ incoming.length) :
    (party.step again incoming).isSome := by
  unfold Party.step at *
  cases talk : party.talk with
  | none => simp [talk] at stepped
  | some talk' =>
    simp only [talk] at stepped ⊢
    cases talk' with
    | done result => rfl
    | send bytes rest => rfl
    | recv count rest =>
      by_cases possible : party.taken + count ≤ stream.length
      · simp only [possible, if_true, Option.some.injEq] at stepped
        subst stepped
        simp [enough]
      · simp [possible] at stepped

theorem Party.step_send {incoming : List β} {party : Party β α} {bytes : List β} {rest : Talk β α}
    (talk : party.talk = some (send bytes rest)) :
    party.step again incoming =
      some ⟨some rest, party.results, party.sent ++ bytes, party.taken, false⟩ := by
  simp only [Party.step, talk]

theorem Party.step_done {incoming : List β} {party : Party β α} {result : α}
    (talk : party.talk = some (done result)) :
    party.step again incoming =
      some ⟨again (party.results ++ [result]), party.results ++ [result], party.sent,
        party.taken, true⟩ := by
  simp only [Party.step, talk]

/-- Bytes that are there are received. -/
theorem Party.step_recv {incoming : List β} {party : Party β α} {count : Nat}
    {rest : List β → Talk β α} (talk : party.talk = some (recv count rest))
    {front bytes back : List β} (split : incoming = front ++ (bytes ++ back))
    (taken : front.length = party.taken) (length : bytes.length = count) :
    party.step again incoming =
      some ⟨some (rest bytes), party.results, party.sent, party.taken + count, false⟩ := by
  have enough : party.taken + count ≤ incoming.length := by
    rw [split, List.length_append, List.length_append]
    omega
  simp only [Party.step, talk, enough, if_true]
  rw [split, List.drop_left' taken, List.take_left' length]

/-- A run alone goes through these states, from each to the next, and ends with the last. -/
theorem Party.alone_eq {incoming : List β} {start : Party β α} {later : List (Party β α)}
    (chain : (start :: later).IsChain fun party next => party.step again incoming = some next)
    (blocked : ((start :: later).getLast (List.cons_ne_nil start later)).step again incoming = none)
    (count : Nat) : start.alone again incoming count = (start :: later)[count]? := by
  induction count with
  | zero => rfl
  | succ count inductionHypothesis =>
    rw [Party.alone, inductionHypothesis]
    by_cases inside : count + 1 < (start :: later).length
    · have stepped := List.isChain_iff_getElem.mp chain count inside
      rw [List.getElem?_eq_getElem (Nat.lt_of_succ_lt inside), List.getElem?_eq_getElem inside]
      exact stepped
    · rw [List.getElem?_eq_none (Nat.le_of_not_lt inside)]
      by_cases last : count < (start :: later).length
      · have position : count = (start :: later).length - 1 := by omega
        rw [List.getLast_eq_getElem] at blocked
        subst position
        rw [List.getElem?_eq_getElem last]
        exact blocked
      · rw [List.getElem?_eq_none (Nat.le_of_not_lt last)]
        rfl

/-! ## Both parties -/

variable {start parties : Bool → Party β α} {stream : Bool → List β}

/-- What a party sends, alone against the stream of the other one, is the
beginning of its own stream. -/
def Consistent (again : List α → Option (Talk β α)) (stream : Bool → List β)
    (start : Bool → Party β α) : Prop :=
  ∀ b count party, (start b).alone again (stream !b) count = some party → party.sent <+: stream b

/-- One step of the two is one step alone of the one that moves. -/
theorem step_alone (consistent : Consistent again stream start) {counts : Bool → Nat}
    (reached : ∀ b, (start b).alone again (stream !b) (counts b) = some (parties b)) {mover : Bool}
    {next : Bool → Party β α} (stepped : step again parties mover = some next) (b : Bool) :
    (start b).alone again (stream !b) (counts b + [mover].count b) = some (next b) := by
  obtain ⟨moved, run, rfl⟩ := Option.map_eq_some_iff.mp stepped
  by_cases same : b = mover
  · subst same
    have front := consistent (!b) _ _ (reached !b)
    rw [List.count_singleton_self, Party.alone, reached b, Option.bind_some, Function.update_self]
    exact Party.step_prefix front run
  · rw [Function.update_of_ne same, List.count_singleton]
    simpa [Ne.symm same] using reached b

theorem run_alone_from (consistent : Consistent again stream start) {counts : Bool → Nat}
    {schedule : List Bool} {final : Bool → Party β α}
    (reached : ∀ b, (start b).alone again (stream !b) (counts b) = some (parties b))
    (ran : Run.run (step again) id parties schedule = some final) (b : Bool) :
    (start b).alone again (stream !b) (counts b + schedule.count b) = some (final b) := by
  induction schedule generalizing parties counts with
  | nil =>
    obtain rfl : parties = final := Option.some.inj ran
    exact reached b
  | cons mover schedule inductionHypothesis =>
    obtain ⟨next, stepped, rest⟩ := Option.bind_eq_some_iff.mp ran
    have after := inductionHypothesis (step_alone consistent reached stepped) rest
    rwa [Nat.add_assoc, ← List.count_append] at after

/-- In every interleaving each party is where its run alone is after as many steps. -/
theorem run_alone (consistent : Consistent again stream start) {schedule : List Bool}
    (ran : Run.run (step again) id start schedule = some parties) (b : Bool) :
    (start b).alone again (stream !b) (schedule.count b) = some (parties b) := by
  have reached : ∀ b, (start b).alone again (stream !b) ((fun _ => 0 : Bool → Nat) b) =
      some (start b) := fun _ => rfl
  have after := run_alone_from consistent reached ran b
  rwa [Nat.zero_add] at after

/-- A party that could move with the complete stream, but cannot, waits for
what has not been sent. -/
theorem waits_of_stuck {mover : Bool} (stuck : step again parties mover = none) {next : Party β α}
    (possible : (parties mover).step again (stream !mover) = some next) :
    (parties !mover).sent.length < next.taken := by
  by_contra enough
  have moves := Party.step_of_enough possible (Nat.le_of_not_lt enough)
  rw [step, Option.map_eq_none_iff] at stuck
  simp [stuck] at moves

end Talk

end NuLab
