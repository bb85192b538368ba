import Mathlib.Logic.Function.Basic
import NuLab.Dca.Discipline
import NuLab.Memory.Code

/-! # Programs on several memories

A program makes arrays, gets blocks from `nu_malloc` and its relatives, and switches the
default memory.  Every memory keeps a ledger.  As long as the program frees a block only
while the default memory is the one that the block came from, no ledger refuses a request,
and each lists what the program holds of this memory.
-/

namespace NuLab.Memory

open NuLab.Dca NuLab.Ledger NuLab.Run

/-! ## Operations -/

/-- A block from `nu_malloc`, `nu_calloc` or `nu_realloc`, and the memory that it came from. -/
structure Plain (μ : Type) where
  mem : μ
  block : Block

/-- What a program holds, and the ledger of each memory. -/
structure Heap (μ : Type) where
  nulibDefaultMemoryPtr : Option μ
  arrays : List (DcaObject μ)
  plains : List (Plain μ)
  ledger : μ → List (Live Nat)

variable {μ : Type}

def Heap.start : Heap μ := ⟨none, [], [], fun _ => []⟩

inductive HeapOp (μ : Type) where
  | setDefault (m : Option μ)
  | create (off es : UInt64)
  | createWithMemory (mem : μ) (off es : UInt64)
  | array (i : Nat) (op : DcaOp)
  | malloc (nb : UInt64)
  | calloc (c nb : UInt64)
  | realloc (ptr : Option Nat) (nb : UInt64)
  | free (ptr : Nat)

/-- A release with 0 for size and alignment is about the block at the address. -/
def enterCall (answer : Option Nat) (ledger : List (Live Nat)) : MemCall → Option (List (Live Nat))
  | .consume ptr nb a => serve answer ledger (MemCall.consume ptr nb a).request
  | .release ptr nb a =>
    if nb = 0 ∧ a = NuAlignNone then discard ledger ptr
    else serve answer ledger (.release ptr nb.toNat a)

def Heap.current (builtin : μ) (heap : Heap μ) : μ :=
  (nuMemoryGetDefault builtin heap.nulibDefaultMemoryPtr).1

variable [DecidableEq μ]

/-- No result where a ledger refuses the call or the built-in memory aborts. -/
def Heap.ask (builtin : μ) (reply : Option Grant) (heap : Heap μ) (asked : OpsCall μ) :
    Option (Heap μ) :=
  if asked.returns builtin reply then
    (enterCall (reply.map Grant.addr) (heap.ledger asked.mem) asked.call).map fun entered =>
      { heap with ledger := Function.update heap.ledger asked.mem entered }
  else none

/-- The calls of a function of `memory.h`. -/
def Heap.request (builtin : μ) (reply : Option Grant) (heap : Heap μ) (asked : Asked μ) :
    Option (Heap μ) :=
  asked.calls.foldlM (Heap.ask builtin reply)
    { heap with nulibDefaultMemoryPtr := asked.nulibDefaultMemoryPtr }

def Plain.isAt (m : μ) (ptr : Nat) (plain : Plain μ) : Bool :=
  plain.mem = m ∧ plain.block.addr = ptr

/-- The block that a pointer stands for when it is handed to the memory. -/
def Heap.find (heap : Heap μ) (m : μ) (ptr : Nat) : Option Block :=
  (heap.plains.find? (·.isAt m ptr)).map Plain.block

def Heap.drop (heap : Heap μ) (m : μ) (ptr : Nat) : Heap μ :=
  { heap with plains := heap.plains.filter fun plain => !plain.isAt m ptr }

def Heap.add (heap : Heap μ) (m : μ) (ret : Option Block) : Heap μ :=
  { heap with plains := ret.toList.map (Plain.mk m) ++ heap.plains }

/-- One operation with the answer of the memory, should it be asked. -/
def heapStep (builtin : μ) (heap : Heap μ) : HeapOp μ × Option Grant → Option (Heap μ)
  | (.setDefault m, _) =>
    some { heap with nulibDefaultMemoryPtr :=
      (nuMemorySetDefault builtin heap.nulibDefaultMemoryPtr m).2 }
  | (.create off es, _) =>
    let (dca, nulibDefaultMemoryPtr) := create builtin heap.nulibDefaultMemoryPtr off es
    some { heap with nulibDefaultMemoryPtr, arrays := heap.arrays ++ [dca] }
  | (.createWithMemory mem off es, _) =>
    some { heap with arrays := heap.arrays ++ [createWithMemory mem off es] }
  | (.array i op, reply) => do
    let dca ← heap.arrays[i]?
    let out ← dcaStep dca.off dca.es dca.pp (op, reply)
    let heap ← (out.calls.map (OpsCall.mk dca.mem)).foldlM (Heap.ask builtin reply) heap
    some { heap with arrays := heap.arrays.set i { dca with pp := out.pp } }
  | (.malloc nb, reply) => do
    let asked := nuMalloc builtin heap.nulibDefaultMemoryPtr nb reply
    let after ← heap.request builtin reply asked
    some (after.add (heap.current builtin) asked.ret)
  | (.calloc c nb, reply) => do
    let asked := nuCalloc builtin heap.nulibDefaultMemoryPtr c nb reply
    let after ← heap.request builtin reply asked
    some (after.add (heap.current builtin) asked.ret)
  | (.realloc none nb, reply) => do
    let asked := nuRealloc builtin heap.nulibDefaultMemoryPtr none nb reply
    let after ← heap.request builtin reply asked
    some (after.add (heap.current builtin) asked.ret)
  | (.realloc (some ptr) nb, reply) => do
    let old ← heap.find (heap.current builtin) ptr
    let asked := nuRealloc builtin heap.nulibDefaultMemoryPtr (some old) nb reply
    let after ← heap.request builtin reply asked
    -- NULL leaves the old block to the program
    if asked.ret.isSome
      then some ((after.drop (heap.current builtin) ptr).add (heap.current builtin) asked.ret)
    else some after
  | (.free ptr, reply) => do
    let after ← heap.request builtin reply (nuFree builtin heap.nulibDefaultMemoryPtr ptr)
    some (after.drop (heap.current builtin) ptr)

/-! ## What the program has to keep to -/

/-- An answer is no address that is live in the memory, but for the block that it replaces. -/
def Heap.Fresh (heap : Heap μ) (m : μ) (own : Option Nat) (reply : Option Grant) : Prop :=
  ∀ grant, reply = some grant → ∀ live ∈ heap.ledger m, live.addr = grant.addr →
    own = some grant.addr

/-- Arrays have room for their header and elements of some size, a block is freed or reallocated
while the default memory is the one it came from, and the memories keep to their side. -/
def Proper (builtin : μ) (heap : Heap μ) : HeapOp μ × Option Grant → Prop
  | (.setDefault _, _) => True
  | (.create off es, _) => 16 ≤ off.toNat ∧ 0 < es.toNat
  | (.createWithMemory _ off es, _) => 16 ≤ off.toNat ∧ 0 < es.toNat
  | (.array i op, reply) =>
    ∃ dca, heap.arrays[i]? = some dca ∧ NoWrap dca.off dca.es dca.pp (op, reply) ∧
      heap.Fresh dca.mem (dca.pp.map Block.addr) reply ∧
      ∀ out, dcaStep dca.off dca.es dca.pp (op, reply) = some out →
        ∀ call ∈ out.calls, (OpsCall.mk dca.mem call).returns builtin reply
  | (.malloc nb, reply) => heap.Fresh (heap.current builtin) none reply ∧
      (nuMemoryConsume (heap.current builtin) nb).returns builtin reply
  | (.calloc c nb, reply) => heap.Fresh (heap.current builtin) none reply ∧
      (nuMemoryConsume (heap.current builtin) (c * nb)).returns builtin reply
  | (.realloc ptr nb, reply) =>
    (∀ addr, ptr = some addr → (heap.find (heap.current builtin) addr).isSome) ∧
      heap.Fresh (heap.current builtin) ptr reply ∧
      (nuMemoryReconsume (heap.current builtin) ptr nb).returns builtin reply
  | (.free ptr, _) => (heap.find (heap.current builtin) ptr).isSome

/-! ## Accounts -/

def plainLive (block : Block) : Live Nat := ⟨block.addr, block.bytes.length, NuAlignMax⟩

def DcaObject.ownedIn (m : μ) (dca : DcaObject μ) : List (Live Nat) :=
  if dca.mem = m then owned dca.off dca.pp else []

def plainsIn (m : μ) (plains : List (Plain μ)) : List (Live Nat) :=
  (plains.filter (·.mem = m)).map fun plain => plainLive plain.block

/-- What the program holds of a memory. -/
def Heap.held (heap : Heap μ) (m : μ) : List (Live Nat) :=
  heap.arrays.flatMap (DcaObject.ownedIn m) ++ plainsIn m heap.plains

structure DcaObject.Sound (dca : DcaObject μ) : Prop where
  header : 16 ≤ dca.off.toNat
  positive : 0 < dca.es.toNat
  intact : IntactArray dca.off dca.pp

/-- Each ledger lists what is held of its memory, at different addresses. -/
structure Accounted (heap : Heap μ) : Prop where
  sound : ∀ dca ∈ heap.arrays, dca.Sound
  ledger : ∀ m, (heap.ledger m).Perm (heap.held m)
  distinct : ∀ m, ((heap.held m).map Live.addr).Nodup

theorem accounted_start : Accounted (Heap.start : Heap μ) where
  sound _ member := absurd member List.not_mem_nil
  ledger _ := List.Perm.refl _
  distinct _ := List.nodup_nil

/-- A step that changes one ledger. -/
theorem Accounted.update {heap after : Heap μ} {m : μ} {entered : List (Live Nat)}
    (accounted : Accounted heap) (changed : after.ledger = Function.update heap.ledger m entered)
    (same : entered.Perm (after.held m)) (distinct : (entered.map Live.addr).Nodup)
    (others : ∀ k, k ≠ m → (heap.held k).Perm (after.held k))
    (sound : ∀ dca ∈ after.arrays, dca.Sound) : Accounted after where
  sound := sound
  ledger k := by
    by_cases here : k = m
    · rw [here, changed, Function.update_self]
      exact same
    · rw [changed, Function.update_of_ne here]
      exact (accounted.ledger k).trans (others k here)
  distinct k := by
    by_cases here : k = m
    · rw [here]
      exact (same.map _).nodup_iff.mp distinct
    · exact ((others k here).map _).nodup_iff.mp (accounted.distinct k)

/-! ## Calls -/

theorem enterCall_of_serve {answer : Option Nat} {ledger after : List (Live Nat)} {call : MemCall}
    (served : serve answer ledger call.request = some after) :
    enterCall answer ledger call = some after := by
  cases call with
  | consume ptr nb a => exact served
  | release ptr nb a =>
    simp only [MemCall.request, serve, Option.ite_none_right_eq_some, Option.some.injEq] at served
    obtain ⟨member, rfl⟩ := served
    by_cases told : nb = 0 ∧ a = NuAlignNone
    · exact (if_pos told).trans (if_pos ⟨_, member, rfl⟩)
    · exact (if_neg told).trans (if_pos member)

theorem ask_of_serve {builtin : μ} {reply : Option Grant} (heap : Heap μ) {asked : OpsCall μ}
    {entered : List (Live Nat)} (returns : asked.returns builtin reply)
    (served : enterCall (reply.map Grant.addr) (heap.ledger asked.mem) asked.call = some entered) :
    heap.ask builtin reply asked =
      some { heap with ledger := Function.update heap.ledger asked.mem entered } := by
  rw [Heap.ask, if_pos returns, served, Option.map_some]

/-- The one call of a function of `memory.h`. -/
theorem request_of_serve (builtin : μ) {reply : Option Grant} {heap : Heap μ} {asked : Asked μ}
    {single : OpsCall μ} {entered : List (Live Nat)} (calls : asked.calls = [single])
    (returns : single.returns builtin reply)
    (served : enterCall (reply.map Grant.addr) (heap.ledger single.mem) single.call =
      some entered) :
    heap.request builtin reply asked = some ⟨asked.nulibDefaultMemoryPtr, heap.arrays, heap.plains,
      Function.update heap.ledger single.mem entered⟩ := by
  rw [Heap.request, calls, List.foldlM_cons, Heap.ask, if_pos returns, served]
  rfl

/-- The calls of an array are entered in the ledger of its memory. -/
theorem ask_serveAll {builtin mem : μ} {reply : Option Grant} {calls : List MemCall} {heap : Heap μ}
    {entered : List (Live Nat)}
    (returns : ∀ call ∈ calls, (OpsCall.mk mem call).returns builtin reply)
    (served : serveAll (reply.map Grant.addr) (heap.ledger mem) (calls.map MemCall.request) =
      some entered) :
    (calls.map (OpsCall.mk mem)).foldlM (Heap.ask builtin reply) heap =
      some { heap with ledger := Function.update heap.ledger mem entered } := by
  induction calls generalizing heap with
  | nil =>
    cases served
    rw [Function.update_eq_self]
    rfl
  | cons call calls inductionHypothesis =>
    obtain ⟨middle, first, others⟩ := Option.bind_eq_some_iff.mp served
    have asked := ask_of_serve heap (returns call List.mem_cons_self) (enterCall_of_serve first)
    let begun : Heap μ := { heap with ledger := Function.update heap.ledger mem middle }
    have later : (calls.map (OpsCall.mk mem)).foldlM (Heap.ask builtin reply) begun =
        some { begun with ledger := Function.update begun.ledger mem entered } :=
      inductionHypothesis (fun call member => returns call (List.mem_cons_of_mem _ member))
        (by simp only [begun, Function.update_self]; exact others)
    rw [List.map_cons, List.foldlM_cons, asked]
    simp only [begun, Function.update_idem] at later
    exact later

/-! ## Arrays -/

theorem flatMap_set {α β : Type} {f : α → List β} {l : List α} {i : Nat} {x : α}
    (here : l[i]? = some x) : ∃ others, ∀ y, ((l.set i y).flatMap f).Perm (f y ++ others) := by
  induction l generalizing i with
  | nil => simp at here
  | cons head tail inductionHypothesis =>
    cases i with
    | zero => exact ⟨tail.flatMap f, fun y => List.Perm.refl _⟩
    | succ i =>
      obtain ⟨others, rest⟩ := inductionHypothesis (List.getElem?_cons_succ ▸ here)
      refine ⟨f head ++ others, fun y => ?_⟩
      rw [List.set_cons_succ, List.flatMap_cons]
      exact ((rest y).append_left _).trans (List.perm_append_comm_assoc _ _ _)

/-- The blocks of the other arrays, and those that are no array's. -/
theorem held_set {heap : Heap μ} {i : Nat} {dca : DcaObject μ} (here : heap.arrays[i]? = some dca)
    (m : μ) :
    ∃ others, (heap.held m).Perm (dca.ownedIn m ++ others) ∧
      ∀ dca', ({ heap with arrays := heap.arrays.set i dca' }.held m).Perm
        (dca'.ownedIn m ++ others) := by
  obtain ⟨others, rest⟩ := flatMap_set (f := DcaObject.ownedIn m) here
  have replaced : ∀ dca', ({ heap with arrays := heap.arrays.set i dca' }.held m).Perm
      (dca'.ownedIn m ++ (others ++ plainsIn m heap.plains)) := by
    intro dca'
    rw [← List.append_assoc]
    exact (rest dca').append_right _
  refine ⟨_, ?_, replaced⟩
  obtain ⟨inside, read⟩ := List.getElem?_eq_some_iff.mp here
  have same : heap.arrays.set i dca = heap.arrays := read ▸ List.set_getElem_self inside
  have unchanged := replaced dca
  rwa [same] at unchanged

theorem owned_nodup (off : UInt64) (pp : Option Block) : ((owned off pp).map Live.addr).Nodup := by
  cases pp with
  | none => exact List.nodup_nil
  | some p => exact List.nodup_singleton _

theorem held_set_other {heap : Heap μ} {i : Nat} {dca : DcaObject μ}
    (here : heap.arrays[i]? = some dca) {k : μ} (other : k ≠ dca.mem) (pp : Option Block) :
    (heap.held k).Perm
      ({ heap with arrays := heap.arrays.set i { dca with pp := pp } }.held k) := by
  obtain ⟨others, before, behind⟩ := held_set here k
  have none : ∀ pp, DcaObject.ownedIn k { dca with pp := pp } = [] := fun _ => if_neg other.symm
  have behind := behind { dca with pp := pp }
  rw [none pp] at behind
  rw [none dca.pp] at before
  exact before.trans behind.symm

/-- What the ledger of its own would serve is served among the blocks that are held besides. -/
theorem array_served {heap : Heap μ} {i : Nat} {dca : DcaObject μ} {reply : Option Grant}
    {out : Outcome} (accounted : Accounted heap) (here : heap.arrays[i]? = some dca)
    (fresh : heap.Fresh dca.mem (dca.pp.map Block.addr) reply)
    (serves : Serves dca.off dca.pp reply out) :
    ∃ entered, serveAll (reply.map Grant.addr) (heap.ledger dca.mem)
      (out.calls.map MemCall.request) = some entered ∧
      entered.Perm
        ({ heap with arrays := heap.arrays.set i { dca with pp := out.pp } }.held dca.mem) ∧
      (entered.map Live.addr).Nodup := by
  obtain ⟨others, before, behind⟩ := held_set here dca.mem
  have mine : ∀ pp, DcaObject.ownedIn dca.mem { dca with pp := pp } = owned dca.off pp :=
    fun _ => if_pos rfl
  have behind := behind { dca with pp := out.pp }
  rw [mine out.pp] at behind
  rw [mine dca.pp] at before
  have listed := (accounted.ledger dca.mem).trans before
  have distinct := (before.map Live.addr).nodup_iff.mp (accounted.distinct dca.mem)
  rw [List.map_append, List.nodup_append] at distinct
  have apart : Apart (owned dca.off dca.pp) others := fun _ member _ inOthers =>
    distinct.2.2 _ (List.mem_map_of_mem member) _ (List.mem_map_of_mem inOthers)
  have unused : ∀ live ∈ others, reply.map Grant.addr ≠ some live.addr := by
    intro live inOthers answered
    obtain ⟨grant, replied, same⟩ := Option.map_eq_some_iff.mp answered
    have own :=
      fresh grant replied live (listed.mem_iff.mpr (List.mem_append_right _ inOthers)) same.symm
    obtain ⟨p, allocated, place⟩ := Option.map_eq_some_iff.mp own
    rw [allocated] at apart
    exact apart _ (List.mem_singleton_self _) live inOthers (place.trans same)
  obtain ⟨framed, apart'⟩ := serveAll_frame apart unused serves
  obtain ⟨entered, served, same⟩ := serveAll_perm listed.symm framed
  refine ⟨entered, served, same.symm.trans behind.symm, (same.map Live.addr).nodup_iff.mp ?_⟩
  rw [List.map_append, List.nodup_append]
  refine ⟨owned_nodup _ _, distinct.2.1, ?_⟩
  intro addr ours addr' theirs
  obtain ⟨live, inOwned, rfl⟩ := List.mem_map.mp ours
  obtain ⟨live', inOthers, rfl⟩ := List.mem_map.mp theirs
  exact apart' live inOwned live' inOthers

theorem array_step {builtin : μ} {heap : Heap μ} {i : Nat} {op : DcaOp} {reply : Option Grant}
    (accounted : Accounted heap) (proper : Proper builtin heap (.array i op, reply)) :
    ∃ after, heapStep builtin heap (.array i op, reply) = some after ∧ Accounted after := by
  obtain ⟨dca, here, noWrap, fresh, returns⟩ := proper
  have sound := accounted.sound dca (List.mem_of_getElem? here)
  obtain ⟨out, step, -, intact⟩ :=
    dcaStep_safe dca.off dca.es sound.header sound.positive dca.pp (op, reply) sound.intact noWrap
  let dca' : DcaObject μ := { dca with pp := out.pp }
  obtain ⟨entered, served, held, distinct⟩ :=
    array_served accounted here fresh (dcaStep_serves step)
  have asked := ask_serveAll (returns out step) served
  refine ⟨{ heap with
      arrays := heap.arrays.set i dca'
      ledger := Function.update heap.ledger dca.mem entered }, ?_,
    accounted.update (m := dca.mem) rfl held distinct
      (fun k other => held_set_other here other out.pp) ?_⟩
  · simp only [heapStep, here, Option.bind_eq_bind, Option.bind_some, step, asked]
    rfl
  · intro object member
    obtain same | member := List.mem_or_eq_of_mem_set member
    · exact accounted.sound object same
    · rw [member]
      exact ⟨sound.header, sound.positive, intact⟩

/-! ## Plain blocks -/

/-- What a reply enters in the ledger. -/
def entry (nb : UInt64) (reply : Option Grant) : List (Live Nat) :=
  (reply.map fun grant => ⟨grant.addr, nb.toNat, NuAlignMax⟩).toList

theorem enter_entry (ledger : List (Live Nat)) (nb : UInt64) (reply : Option Grant) :
    enter ledger (reply.map Grant.addr) nb.toNat NuAlignMax = entry nb reply ++ ledger := by
  cases reply <;> rfl

theorem entry_memConsume (old : List UInt8) (nb : UInt64) (reply : Option Grant) :
    (memConsume old nb reply).toList.map plainLive = entry nb reply := by
  cases reply with
  | none => rfl
  | some grant =>
    obtain ⟨p, served, length, addr⟩ := memConsume_length old nb grant
    rw [served, Option.toList_some, List.map_singleton, plainLive, length, addr]
    rfl

theorem plainsIn_append (m : μ) (front back : List (Plain μ)) :
    plainsIn m (front ++ back) = plainsIn m front ++ plainsIn m back := by
  rw [plainsIn, List.filter_append, List.map_append]
  rfl

theorem held_add (heap : Heap μ) (m : μ) (ret : Option Block) :
    (ret.toList.map plainLive ++ heap.held m).Perm ((heap.add m ret).held m) := by
  have new : plainsIn m (ret.toList.map (Plain.mk m)) = ret.toList.map plainLive := by
    cases ret <;> simp [plainsIn]
  rw [Heap.held, Heap.held, Heap.add, plainsIn_append, new]
  exact List.perm_append_comm_assoc _ _ _

theorem held_add_other (heap : Heap μ) {m k : μ} (other : k ≠ m) (ret : Option Block) :
    (heap.add m ret).held k = heap.held k := by
  have new : plainsIn k (ret.toList.map (Plain.mk m)) = [] := by
    cases ret <;> simp [plainsIn, other.symm]
  rw [Heap.held, Heap.held, Heap.add, plainsIn_append, new, List.nil_append]

/-- A new block in front of blocks with other addresses. -/
theorem entry_nodup {nb : UInt64} {reply : Option Grant} {rest : List (Live Nat)}
    (unused : ∀ live ∈ rest, reply.map Grant.addr ≠ some live.addr)
    (distinct : (rest.map Live.addr).Nodup) :
    ((entry nb reply ++ rest).map Live.addr).Nodup := by
  cases reply with
  | none => exact distinct
  | some grant =>
    refine List.nodup_cons.mpr ⟨fun member => ?_, distinct⟩
    obtain ⟨live, inRest, same⟩ := List.mem_map.mp member
    exact unused live inRest (congrArg some same.symm)

/-- `nu_malloc` and what does the same. -/
theorem obtain_step {builtin : μ} {heap : Heap μ} (asked : Asked μ) (accounted : Accounted heap)
    {nb : UInt64} {reply : Option Grant}
    (calls : asked.calls = [nuMemoryConsume (heap.current builtin) nb])
    (ret : asked.ret.toList.map plainLive = entry nb reply)
    (fresh : heap.Fresh (heap.current builtin) none reply)
    (returns : (nuMemoryConsume (heap.current builtin) nb).returns builtin reply) :
    ∃ after, heap.request builtin reply asked = some after ∧
      Accounted (after.add (heap.current builtin) asked.ret) := by
  let m := heap.current builtin
  have served : enterCall (reply.map Grant.addr) (heap.ledger m) (nuMemoryConsume m nb).call =
      some (entry nb reply ++ heap.ledger m) :=
    congrArg some (enter_entry (heap.ledger m) nb reply)
  have unused : ∀ live ∈ heap.ledger m, reply.map Grant.addr ≠ some live.addr := by
    intro live member answered
    obtain ⟨grant, replied, same⟩ := Option.map_eq_some_iff.mp answered
    cases fresh grant replied live member same.symm
  refine ⟨_, request_of_serve builtin calls returns served,
    accounted.update (m := m) rfl ?_ ?_ ?_ accounted.sound⟩
  · rw [← ret]
    exact ((accounted.ledger m).append_left _).trans (held_add _ m asked.ret)
  · exact entry_nodup unused (((accounted.ledger m).map _).nodup_iff.mpr (accounted.distinct m))
  · intro k other
    rw [held_add_other _ other]
    exact List.Perm.refl _

theorem malloc_step {builtin : μ} {heap : Heap μ} {nb : UInt64} {reply : Option Grant}
    (accounted : Accounted heap) (proper : Proper builtin heap (.malloc nb, reply)) :
    ∃ after, heapStep builtin heap (.malloc nb, reply) = some after ∧ Accounted after := by
  obtain ⟨after, requested, kept⟩ :=
    obtain_step (nuMalloc builtin heap.nulibDefaultMemoryPtr nb reply) accounted rfl
      (entry_memConsume [] nb reply) proper.1 proper.2
  exact ⟨_, by simp only [heapStep, Option.bind_eq_bind, requested, Option.bind_some], kept⟩

theorem calloc_step {builtin : μ} {heap : Heap μ} {c nb : UInt64} {reply : Option Grant}
    (accounted : Accounted heap) (proper : Proper builtin heap (.calloc c nb, reply)) :
    ∃ after, heapStep builtin heap (.calloc c nb, reply) = some after ∧ Accounted after := by
  by_cases checked : c.toNat * nb.toNat ≤ SIZE_MAX
  · have product : ckdMul c nb = some (c * nb) := if_pos checked
    have zeros : (nuCalloc builtin heap.nulibDefaultMemoryPtr c nb reply).ret.toList.map plainLive =
        entry (c * nb) reply := by
      simp only [nuCalloc, product, nuMalloc]
      cases reply with
      | none => rfl
      | some grant => simp [memConsume, plainLive, entry]
    obtain ⟨after, requested, kept⟩ :=
      obtain_step (nuCalloc builtin heap.nulibDefaultMemoryPtr c nb reply) accounted
        (by rw [nuCalloc, product]; rfl) zeros proper.1 proper.2
    exact ⟨_, by simp only [heapStep, Option.bind_eq_bind, requested, Option.bind_some], kept⟩
  · -- nothing is asked
    have overflow : ckdMul c nb = none := if_neg checked
    refine ⟨heap, ?_, accounted⟩
    simp only [heapStep, nuCalloc, overflow, Heap.request, List.foldlM_nil, Option.bind_eq_bind,
      Option.pure_def, Option.bind_some]
    rfl

theorem realloc_null_step {builtin : μ} {heap : Heap μ} {nb : UInt64} {reply : Option Grant}
    (accounted : Accounted heap) (proper : Proper builtin heap (.realloc none nb, reply)) :
    ∃ after, heapStep builtin heap (.realloc none nb, reply) = some after ∧ Accounted after := by
  obtain ⟨after, requested, kept⟩ :=
    obtain_step (nuRealloc builtin heap.nulibDefaultMemoryPtr none nb reply) accounted rfl
      (entry_memConsume [] nb reply) proper.2.1 proper.2.2
  exact ⟨_, by simp only [heapStep, Option.bind_eq_bind, requested, Option.bind_some], kept⟩

theorem plainsIn_drop (m : μ) (ptr : Nat) (plains : List (Plain μ)) :
    plainsIn m (plains.filter fun plain => !plain.isAt m ptr) =
      (plainsIn m plains).filter (·.addr ≠ ptr) := by
  rw [plainsIn, plainsIn, List.filter_map, List.filter_filter, List.filter_filter]
  refine congrArg _ (List.filter_congr fun plain _ => ?_)
  by_cases here : plain.mem = m <;> simp [here, Plain.isAt, plainLive]

theorem plainsIn_drop_other {m k : μ} (other : k ≠ m) (ptr : Nat) (plains : List (Plain μ)) :
    plainsIn k (plains.filter fun plain => !plain.isAt m ptr) = plainsIn k plains := by
  rw [plainsIn, plainsIn, List.filter_filter]
  refine congrArg _ (List.filter_congr fun plain _ => ?_)
  by_cases here : plain.mem = k <;> simp [here, other, Plain.isAt]

theorem find_mem {heap : Heap μ} {m : μ} {ptr : Nat} {block : Block}
    (found : heap.find m ptr = some block) :
    plainLive block ∈ plainsIn m heap.plains ∧ block.addr = ptr := by
  obtain ⟨plain, first, rfl⟩ := Option.map_eq_some_iff.mp found
  have place : plain.mem = m ∧ plain.block.addr = ptr := of_decide_eq_true (List.find?_some first :)
  have member : plain ∈ heap.plains.filter (·.mem = m) :=
    List.mem_filter.mpr ⟨List.mem_of_find?_eq_some first, decide_eq_true place.1⟩
  exact ⟨List.mem_map_of_mem (f := fun plain => plainLive plain.block) member, place.2⟩

/-- The arrays have other blocks. -/
theorem held_drop {heap : Heap μ} {m : μ} {ptr : Nat}
    (distinct : ((heap.held m).map Live.addr).Nodup) {live : Live Nat}
    (member : live ∈ plainsIn m heap.plains) (place : live.addr = ptr) :
    (heap.drop m ptr).held m = (heap.held m).filter (·.addr ≠ ptr) := by
  rw [Heap.held, List.map_append, List.nodup_append] at distinct
  -- the blocks of arrays have other addresses than this one
  have kept : (heap.arrays.flatMap (DcaObject.ownedIn m)).filter (·.addr ≠ ptr) =
      heap.arrays.flatMap (DcaObject.ownedIn m) :=
    filter_apart fun mine inArrays => place ▸
      (distinct.2.2 _ (List.mem_map_of_mem inArrays) _ (List.mem_map_of_mem member)).symm
  rw [Heap.held, Heap.held, List.filter_append, kept, ← plainsIn_drop]
  rfl

theorem held_drop_other {heap : Heap μ} {m k : μ} (other : k ≠ m) (ptr : Nat) :
    (heap.drop m ptr).held k = heap.held k := by
  rw [Heap.held, Heap.held, Heap.drop, plainsIn_drop_other other]

theorem filter_nodup {ledger : List (Live Nat)} (distinct : (ledger.map Live.addr).Nodup)
    (ptr : Nat) : ((ledger.filter (·.addr ≠ ptr)).map Live.addr).Nodup :=
  distinct.sublist (List.filter_sublist.map _)

theorem free_step {builtin : μ} {heap : Heap μ} {ptr : Nat} {reply : Option Grant}
    (accounted : Accounted heap) (proper : Proper builtin heap (.free ptr, reply)) :
    ∃ after, heapStep builtin heap (.free ptr, reply) = some after ∧ Accounted after := by
  let m := heap.current builtin
  obtain ⟨block, found⟩ := Option.isSome_iff_exists.mp proper
  obtain ⟨member, place⟩ := find_mem found
  have live : plainLive block ∈ heap.ledger m :=
    (accounted.ledger m).mem_iff.mpr (List.mem_append_right _ member)
  -- neither size nor alignment is told, and the address names one block only
  have served : enterCall (reply.map Grant.addr) (heap.ledger m) (nuMemoryRelease m ptr 0).call =
      some ((heap.ledger m).filter (·.addr ≠ ptr)) := if_pos ⟨plainLive block, live, place⟩
  let asked := nuFree builtin heap.nulibDefaultMemoryPtr ptr
  let after : Heap μ := ⟨asked.nulibDefaultMemoryPtr, heap.arrays, heap.plains,
    Function.update heap.ledger m ((heap.ledger m).filter (·.addr ≠ ptr))⟩
  have requested : heap.request builtin reply asked = some _ :=
    request_of_serve builtin rfl rfl served
  have distinct := ((accounted.ledger m).map Live.addr).nodup_iff.mpr (accounted.distinct m)
  refine ⟨after.drop m ptr, ?_, accounted.update (m := m) rfl ?_ (filter_nodup distinct ptr)
    ?_ accounted.sound⟩
  · exact congrArg (Option.bind · fun after => some (after.drop m ptr)) requested
  · have dropped : (after.drop m ptr).held m = (heap.held m).filter (·.addr ≠ ptr) :=
      held_drop (accounted.distinct m) member place
    rw [dropped]
    exact (accounted.ledger m).filter _
  · intro k other
    rw [held_drop_other other]
    exact List.Perm.refl _

theorem realloc_step {builtin : μ} {heap : Heap μ} {ptr : Nat} {nb : UInt64} {reply : Option Grant}
    (accounted : Accounted heap) (proper : Proper builtin heap (.realloc (some ptr) nb, reply)) :
    ∃ after, heapStep builtin heap (.realloc (some ptr) nb, reply) = some after ∧
      Accounted after := by
  let m := heap.current builtin
  obtain ⟨known, fresh, returns⟩ := proper
  obtain ⟨block, found⟩ := Option.isSome_iff_exists.mp (known ptr rfl)
  obtain ⟨member, rfl⟩ := find_mem found
  have live : plainLive block ∈ heap.ledger m :=
    (accounted.ledger m).mem_iff.mpr (List.mem_append_right _ member)
  let rest := (heap.ledger m).filter (·.addr ≠ block.addr)
  have served : enterCall (reply.map Grant.addr) (heap.ledger m)
    (nuMemoryReconsume m (some block.addr) nb).call =
      some (if (reply.map Grant.addr).isSome then entry nb reply ++ rest else heap.ledger m) := by
    rw [← enter_entry]
    exact if_pos ⟨plainLive block, live, rfl⟩
  let asked := nuRealloc builtin heap.nulibDefaultMemoryPtr (some block) nb reply
  have requested : heap.request builtin reply asked = some _ :=
    request_of_serve builtin rfl returns served
  have distinct := ((accounted.ledger m).map Live.addr).nodup_iff.mpr (accounted.distinct m)
  cases reply with
  | none =>
    -- NULL: the old block stays in the ledger and with the program
    refine ⟨⟨asked.nulibDefaultMemoryPtr, heap.arrays, heap.plains,
      Function.update heap.ledger m (heap.ledger m)⟩, ?_,
      accounted.update (m := m) rfl (accounted.ledger m) distinct
        (fun _ _ => List.Perm.refl _) accounted.sound⟩
    simp only [heapStep, Option.bind_eq_bind, found, Option.bind_some]
    exact congrArg (Option.bind · _) requested
  | some grant =>
    let after : Heap μ := ⟨asked.nulibDefaultMemoryPtr, heap.arrays, heap.plains,
      Function.update heap.ledger m (entry nb (some grant) ++ rest)⟩
    refine ⟨(after.drop m block.addr).add m asked.ret, ?_,
      accounted.update (m := m) rfl ?_ ?_ ?_ accounted.sound⟩
    · simp only [heapStep, Option.bind_eq_bind, found, Option.bind_some]
      exact congrArg (Option.bind · _) requested
    · have dropped : (after.drop m block.addr).held m =
        (heap.held m).filter (·.addr ≠ block.addr) :=
        held_drop (accounted.distinct m) member rfl
      have added := held_add (after.drop m block.addr) m asked.ret
      rw [dropped, show asked.ret.toList.map plainLive =
        _ from entry_memConsume block.bytes nb (some grant)] at added
      exact (((accounted.ledger m).filter _).append_left _).trans added
    · refine entry_nodup ?_ (filter_nodup distinct block.addr)
      intro live inRest answered
      obtain ⟨inLedger, elsewhere⟩ := List.mem_filter.mp inRest
      have same := Option.some.inj answered
      exact of_decide_eq_true elsewhere
        (same ▸ (Option.some.inj (fresh grant rfl live inLedger same.symm)).symm)
    · intro k other
      rw [held_add_other _ other, held_drop_other other]
      exact List.Perm.refl _

/-! ## Runs -/

/-- A new array has no block. -/
theorem accounted_create {heap : Heap μ} (accounted : Accounted heap)
    (nulibDefaultMemoryPtr : Option μ) (mem : μ) {off es : UInt64} (header : 16 ≤ off.toNat)
    (positive : 0 < es.toNat) :
    Accounted ⟨nulibDefaultMemoryPtr, heap.arrays ++ [createWithMemory mem off es], heap.plains,
      heap.ledger⟩ := by
  have same : ∀ m, (heap.arrays ++ [createWithMemory mem off es]).flatMap (DcaObject.ownedIn m) =
      heap.arrays.flatMap (DcaObject.ownedIn m) := by
    intro m
    have none : (createWithMemory mem off es).ownedIn m = [] := ite_self []
    rw [List.flatMap_append, List.flatMap_singleton, none, List.append_nil]
  constructor
  · intro dca member
    obtain old | new := List.mem_append.mp member
    · exact accounted.sound dca old
    · rw [List.mem_singleton.mp new]
      exact ⟨header, positive, intactArray_none off⟩
  · intro m
    rw [Heap.held, same]
    exact accounted.ledger m
  · intro m
    rw [Heap.held, same]
    exact accounted.distinct m

theorem heap_step {builtin : μ} {heap : Heap μ} (input : HeapOp μ × Option Grant)
    (accounted : Accounted heap) (proper : Proper builtin heap input) :
    ∃ after, heapStep builtin heap input = some after ∧ Accounted after := by
  obtain ⟨op, reply⟩ := input
  cases op with
  | setDefault m => exact ⟨_, rfl, accounted.sound, accounted.ledger, accounted.distinct⟩
  | create off es => exact ⟨_, rfl, accounted_create accounted _ _ proper.1 proper.2⟩
  | createWithMemory mem off es =>
    exact ⟨_, rfl, accounted_create accounted _ mem proper.1 proper.2⟩
  | array i op => exact array_step accounted proper
  | malloc nb => exact malloc_step accounted proper
  | calloc c nb => exact calloc_step accounted proper
  | realloc ptr nb =>
    cases ptr with
    | none => exact realloc_null_step accounted proper
    | some ptr => exact realloc_step accounted proper
  | free ptr => exact free_step accounted proper

theorem heap_run {builtin : μ} {heap : Heap μ} (inputs : List (HeapOp μ × Option Grant))
    (accounted : Accounted heap)
    (proper : Along (heapStep builtin) id (Proper builtin) heap inputs) :
    ∃ after, run (heapStep builtin) id heap inputs = some after ∧ Accounted after := by
  induction inputs generalizing heap with
  | nil => exact ⟨heap, rfl, accounted⟩
  | cons input inputs inductionHypothesis =>
    obtain ⟨now, later⟩ := proper
    obtain ⟨middle, stepped, kept⟩ := heap_step input accounted now
    obtain ⟨after, ran, kept⟩ := inductionHypothesis kept (later middle stepped)
    exact ⟨after, by rw [run, stepped, Option.bind_some]; exact ran, kept⟩

/-- No memory refuses a request, whatever becomes of the default memory; each lists what is held of
it, at different addresses, and nothing once the program has given back all. -/
theorem heap_discipline (builtin : μ) (inputs : List (HeapOp μ × Option Grant))
    (proper : Along (heapStep builtin) id (Proper builtin) Heap.start inputs) :
    ∃ after, run (heapStep builtin) id Heap.start inputs = some after ∧
      (∀ m, (after.ledger m).Perm (after.held m) ∧ ((after.ledger m).map Live.addr).Nodup) ∧
      ((∀ dca ∈ after.arrays, dca.pp = none) → after.plains = [] → ∀ m, after.ledger m = []) := by
  obtain ⟨after, ran, accounted⟩ := heap_run inputs accounted_start proper
  refine ⟨after, ran, ?_, ?_⟩
  · intro m
    exact ⟨accounted.ledger m, ((accounted.ledger m).map _).nodup_iff.mpr (accounted.distinct m)⟩
  · intro released freed m
    have nothing : after.held m = [] := by
      rw [Heap.held, freed, List.flatMap_eq_nil_iff.mpr]
      · rfl
      · intro dca member
        rw [DcaObject.ownedIn, released dca member]
        exact ite_self []
    have same := accounted.ledger m
    rw [nothing] at same
    exact same.eq_nil

/-- An array of the built-in memory, and a block of another one at the same address. -/
def twoMemories : List (HeapOp Bool × Option Grant) :=
  [(.create 16 1, none), (.array 0 (.reserve 3), some ⟨4096, fun _ => 0⟩),
    (.setDefault (some true), none), (.malloc 5, some ⟨4096, fun _ => 0⟩),
    (.array 0 .release, none), (.free 4096, none)]

theorem proper_twoMemories : Along (heapStep false) id (Proper false) Heap.start twoMemories := by
  refine ⟨⟨by decide, by decide⟩, fun _ stepped => ?_⟩
  cases stepped
  refine ⟨⟨_, rfl, fun _ _ _ => by decide, ?_, ?_⟩, fun _ stepped => ?_⟩
  · intro grant _ live member
    cases member
  · intro out ran
    cases ran
    decide
  cases stepped
  refine ⟨trivial, fun _ stepped => ?_⟩
  cases stepped
  refine ⟨⟨?_, by decide⟩, fun _ stepped => ?_⟩
  · intro grant _ live member
    cases member
  cases stepped
  refine ⟨⟨_, rfl, ?_, ?_, ?_⟩, fun _ stepped => ?_⟩
  · intro _ _ answered
    cases answered
  · intro grant answered
    cases answered
  · intro out ran
    cases ran
    decide
  cases stepped
  exact ⟨rfl, fun _ _ => trivial⟩

theorem heap_discipline_twoMemories :
    ∃ after, run (heapStep false) id Heap.start twoMemories = some after ∧
      (∀ m, (after.ledger m).Perm (after.held m) ∧ ((after.ledger m).map Live.addr).Nodup) ∧
      ((∀ dca ∈ after.arrays, dca.pp = none) → after.plains = [] → ∀ m, after.ledger m = []) :=
  heap_discipline false twoMemories proper_twoMemories

end NuLab.Memory
