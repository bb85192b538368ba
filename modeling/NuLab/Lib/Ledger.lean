import Mathlib.Data.List.Basic

/-! # Ledgers of allocated blocks

The ledger of an allocator's client lists the blocks it got and has not given back,
with size and alignment as last asked for.  A request that names any other block, or
gives one back with another size or alignment, has no answer.
-/

namespace NuLab.Ledger

variable {α : Type*} [DecidableEq α]

structure Live (α : Type*) where
  addr : α
  size : Nat
  align : Nat
deriving DecidableEq

/-- A new block, a block in place of an old one, or a block given back. -/
inductive Request (α : Type*) where
  | consume (size align : Nat)
  | reconsume (old : α) (size align : Nat)
  | release (addr : α) (size align : Nat)
deriving DecidableEq

def enter (ledger : List (Live α)) (answer : Option α) (size align : Nat) : List (Live α) :=
  match answer with
  | none => ledger
  | some addr => ⟨addr, size, align⟩ :: ledger

/-- The ledger behind a request; a reallocation that fails leaves the old block live. -/
def serve (answer : Option α) (ledger : List (Live α)) : Request α → Option (List (Live α))
  | .consume size align => some (enter ledger answer size align)
  | .reconsume old size align =>
    if ∃ live ∈ ledger, live.addr = old then
      some (if answer.isSome then enter (ledger.filter (·.addr ≠ old)) answer size
        align else ledger)
    else none
  | .release addr size align =>
    if ⟨addr, size, align⟩ ∈ ledger then some (ledger.filter (·.addr ≠ addr)) else none

/-- The requests of one call, all of which have this answer. -/
def serveAll (answer : Option α) (ledger : List (Live α)) (requests : List (Request α)) :
    Option (List (Live α)) :=
  requests.foldlM (serve answer) ledger

@[simp] theorem serveAll_nil (answer : Option α) (ledger : List (Live α)) :
    serveAll answer ledger [] = some ledger := rfl

@[simp] theorem serveAll_singleton (answer : Option α) (ledger : List (Live α))
    (request : Request α) : serveAll answer ledger [request] = serve answer ledger request := by
  simp [serveAll]

/-! ## Clients with one block at most -/

@[simp] theorem serve_consume (answer : Option α) (size align : Nat) :
    serve answer [] (.consume size align) = some (enter [] answer size align) := rfl

theorem serve_reconsume_failed (live : Live α) (size align : Nat) :
    serve none [live] (.reconsume live.addr size align) = some [live] := by
  simp [serve]

theorem serve_reconsume (addr : α) (live : Live α) (size align : Nat) :
    serve (some addr) [live] (.reconsume live.addr size align) = some [⟨addr, size, align⟩] := by
  simp [serve, enter]

theorem serve_release (answer : Option α) (live : Live α) :
    serve answer [live] (.release live.addr live.size live.align) = some [] := by
  simp [serve]

/-! ## Clients that share an allocator -/

/-- A block given back by a client that does not say its size. -/
def discard (ledger : List (Live α)) (addr : α) : Option (List (Live α)) :=
  if ∃ live ∈ ledger, live.addr = addr then some (ledger.filter (·.addr ≠ addr)) else none

/-- The blocks of two clients have different addresses. -/
def Apart (own rest : List (Live α)) : Prop := ∀ mine ∈ own, ∀ live ∈ rest, mine.addr ≠ live.addr

theorem filter_apart {rest : List (Live α)} {addr : α} (apart : ∀ live ∈ rest, addr ≠ live.addr) :
    rest.filter (·.addr ≠ addr) = rest :=
  List.filter_eq_self.mpr fun live member => decide_eq_true (apart live member).symm

omit [DecidableEq α] in
theorem mem_enter {answer : Option α} {ledger : List (Live α)} {size align : Nat} {live : Live α}
    (member : live ∈ enter ledger answer size align) : live ∈ ledger ∨ answer = some live.addr := by
  cases answer with
  | none => exact Or.inl member
  | some addr =>
    cases member with
    | head => exact Or.inr rfl
    | tail _ member => exact Or.inl member

omit [DecidableEq α] in
theorem enter_append (own rest : List (Live α)) (answer : Option α) (size align : Nat) :
    enter (own ++ rest) answer size align = enter own answer size align ++ rest := by
  cases answer <;> rfl

omit [DecidableEq α] in
theorem enter_perm {ledger other : List (Live α)} (same : ledger.Perm other) (answer : Option α)
    (size align : Nat) : (enter ledger answer size align).Perm (enter other answer size align) := by
  cases answer with
  | none => exact same
  | some addr => exact same.cons _

/-- The addresses behind a request are old ones and the answer. -/
theorem mem_serve {answer : Option α} {ledger after : List (Live α)} {request : Request α}
    (served : serve answer ledger request = some after) {live : Live α} (member : live ∈ after) :
    live ∈ ledger ∨ answer = some live.addr := by
  cases request with
  | consume size align =>
    cases served
    exact mem_enter member
  | reconsume old size align =>
    simp only [serve, Option.ite_none_right_eq_some, Option.some.injEq] at served
    rw [← served.2] at member
    split at member
    · exact (mem_enter member).imp_left List.mem_of_mem_filter
    · exact Or.inl member
  | release addr size align =>
    simp only [serve, Option.ite_none_right_eq_some, Option.some.injEq] at served
    rw [← served.2] at member
    exact Or.inl (List.mem_of_mem_filter member)

/-- The frame rule: what is served for the blocks of a client is served among
the blocks of others. -/
theorem serve_frame {answer : Option α} {own after rest : List (Live α)} {request : Request α}
    (apart : Apart own rest) (served : serve answer own request = some after) :
    serve answer (own ++ rest) request = some (after ++ rest) := by
  cases request with
  | consume size align =>
    cases served
    exact congrArg some (enter_append own rest answer size align)
  | reconsume old size align =>
    simp only [serve, Option.ite_none_right_eq_some, Option.some.injEq] at served ⊢
    obtain ⟨⟨mine, member, same⟩, served⟩ := served
    refine ⟨⟨mine, List.mem_append_left rest member, same⟩, ?_⟩
    -- the block that is named is one of the client's, so that the others keep theirs
    have kept : rest.filter (·.addr ≠ old) = rest := filter_apart (same ▸ apart mine member)
    rw [← served, List.filter_append, kept, enter_append]
    split <;> rfl
  | release addr size align =>
    simp only [serve, Option.ite_none_right_eq_some, Option.some.injEq] at served ⊢
    obtain ⟨member, served⟩ := served
    have kept : rest.filter (·.addr ≠ addr) = rest := filter_apart (apart _ member)
    exact ⟨List.mem_append_left rest member, by rw [← served, List.filter_append, kept]⟩

/-- The requests of one call, whose answer is no address of the others. -/
theorem serveAll_frame {answer : Option α} {own after rest : List (Live α)}
    {requests : List (Request α)} (apart : Apart own rest)
    (unused : ∀ live ∈ rest, answer ≠ some live.addr)
    (served : serveAll answer own requests = some after) :
    serveAll answer (own ++ rest) requests = some (after ++ rest) ∧ Apart after rest := by
  induction requests generalizing own with
  | nil =>
    cases served
    exact ⟨rfl, apart⟩
  | cons request requests inductionHypothesis =>
    obtain ⟨middle, first, others⟩ := Option.bind_eq_some_iff.mp served
    -- an address that is new behind the first request is the answer
    have apart' : Apart middle rest := by
      intro mine member live inRest same
      cases mem_serve first member with
      | inl old => exact apart mine old live inRest same
      | inr new => exact unused live inRest (same ▸ new)
    obtain ⟨framed, apart'⟩ := inductionHypothesis apart' others
    refine ⟨?_, apart'⟩
    rw [serveAll, List.foldlM_cons, serve_frame apart first]
    exact framed

/-- The order of the ledger does not matter. -/
theorem serve_perm {answer : Option α} {ledger other after : List (Live α)} {request : Request α}
    (same : ledger.Perm other) (served : serve answer ledger request = some after) :
    ∃ after', serve answer other request = some after' ∧ after.Perm after' := by
  cases request with
  | consume size align =>
    cases served
    exact ⟨_, rfl, enter_perm same answer size align⟩
  | reconsume old size align =>
    simp only [serve, Option.ite_none_right_eq_some, Option.some.injEq] at served ⊢
    obtain ⟨⟨live, member, found⟩, rfl⟩ := served
    refine ⟨_, ⟨⟨live, same.mem_iff.mp member, found⟩, rfl⟩, ?_⟩
    split
    · exact enter_perm (same.filter _) answer size align
    · exact same
  | release addr size align =>
    simp only [serve, Option.ite_none_right_eq_some, Option.some.injEq] at served ⊢
    obtain ⟨member, rfl⟩ := served
    exact ⟨_, ⟨same.mem_iff.mp member, rfl⟩, same.filter _⟩

theorem serveAll_perm {answer : Option α} {ledger other after : List (Live α)}
    {requests : List (Request α)} (same : ledger.Perm other)
    (served : serveAll answer ledger requests = some after) :
    ∃ after', serveAll answer other requests = some after' ∧ after.Perm after' := by
  induction requests generalizing ledger other with
  | nil =>
    cases served
    exact ⟨other, rfl, same⟩
  | cons request requests inductionHypothesis =>
    obtain ⟨middle, first, others⟩ := Option.bind_eq_some_iff.mp served
    obtain ⟨middle', first', same⟩ := serve_perm same first
    obtain ⟨after', others, same⟩ := inductionHypothesis same others
    exact ⟨after', by rw [serveAll, List.foldlM_cons, first']; exact others, same⟩

end NuLab.Ledger
