import NuLab.Dca.Code

/-! # `memory.h`, `memory.c` and the constructors of `dca.h`

A memory is known by its address; what the operations of a memory return is the answer to
the call.  The built-in memory asks `realloc` for the answer.
-/

namespace NuLab.Memory

open NuLab.Dca

variable {μ : Type}

def NuAlignNone : Nat := 0

/-- The alignment of `long double`. -/
def NuAlignMax : Nat := 16

/-- A call of `m->ops`. -/
structure OpsCall (μ : Type) where
  mem : μ
  call : MemCall

def nuMemoryConsumeAligned (m : μ) (nb : UInt64) (a : Nat) : OpsCall μ := ⟨m, .consume none nb a⟩

def nuMemoryReconsumeAligned (m : μ) (ptr : Option Nat) (nb : UInt64) (a : Nat) : OpsCall μ :=
  ⟨m, .consume ptr nb a⟩

def nuMemoryReleaseAligned (m : μ) (ptr : Nat) (nb : UInt64) (a : Nat) : OpsCall μ :=
  ⟨m, .release ptr nb a⟩

def nuMemoryConsume (m : μ) (nb : UInt64) : OpsCall μ := nuMemoryConsumeAligned m nb NuAlignMax

def nuMemoryReconsume (m : μ) (ptr : Option Nat) (nb : UInt64) : OpsCall μ :=
  nuMemoryReconsumeAligned m ptr nb NuAlignMax

def nuMemoryRelease (m : μ) (ptr : Nat) (nb : UInt64) : OpsCall μ :=
  nuMemoryReleaseAligned m ptr nb NuAlignNone

/-! ## The built-in memory -/

/-- `none` where an assertion fails. -/
def nulibDefaultConsumeImpl (a : Nat) (tmp : Option Grant) : Option Grant :=
  tmp.filter (·.addr % a = 0)

/-- Only the built-in memory asserts that it has an answer. -/
def OpsCall.returns [DecidableEq μ] (builtin : μ) (reply : Option Grant) (asked : OpsCall μ) :
    Bool :=
  match asked.call with
  | .consume _ _ a => asked.mem ≠ builtin ∨ (nulibDefaultConsumeImpl a reply).isSome
  | .release _ _ _ => true

/-! ## The default memory -/

/-- `nulibDefaultMemoryPtr` is the static pointer before and behind the call. -/
def nuMemoryGetDefault (builtin : μ) (nulibDefaultMemoryPtr : Option μ) : μ × Option μ :=
  match nulibDefaultMemoryPtr with
  | none => (builtin, some builtin)
  | some m => (m, some m)

def nuMemorySetDefault (builtin : μ) (nulibDefaultMemoryPtr m : Option μ) : μ × Option μ :=
  let t := (nuMemoryGetDefault builtin nulibDefaultMemoryPtr).1
  (t, some (m.getD t))

/-- What a call returns, asks of a memory and leaves in the static pointer. -/
structure Asked (μ : Type) where
  ret : Option Block
  calls : List (OpsCall μ)
  nulibDefaultMemoryPtr : Option μ

def nuMalloc (builtin : μ) (nulibDefaultMemoryPtr : Option μ) (nb : UInt64) (reply : Option Grant) :
    Asked μ :=
  let (m, nulibDefaultMemoryPtr) := nuMemoryGetDefault builtin nulibDefaultMemoryPtr
  ⟨memConsume [] nb reply, [nuMemoryConsume m nb], nulibDefaultMemoryPtr⟩

/-- `ptr` is the block behind the pointer. -/
def nuRealloc (builtin : μ) (nulibDefaultMemoryPtr : Option μ) (ptr : Option Block) (nb : UInt64)
    (reply : Option Grant) : Asked μ :=
  let (m, nulibDefaultMemoryPtr) := nuMemoryGetDefault builtin nulibDefaultMemoryPtr
  ⟨memConsume ((ptr.map Block.bytes).getD []) nb reply,
    [nuMemoryReconsume m (ptr.map Block.addr) nb], nulibDefaultMemoryPtr⟩

/-- The size is not told. -/
def nuFree (builtin : μ) (nulibDefaultMemoryPtr : Option μ) (ptr : Nat) : Asked μ :=
  let (m, nulibDefaultMemoryPtr) := nuMemoryGetDefault builtin nulibDefaultMemoryPtr
  ⟨none, [nuMemoryRelease m ptr 0], nulibDefaultMemoryPtr⟩

/-- Nothing is asked where the product is no `size_t`, and a handler that
returns goes on with NULL. -/
def nuCalloc (builtin : μ) (nulibDefaultMemoryPtr : Option μ) (c nb : UInt64)
    (reply : Option Grant) : Asked μ :=
  match ckdMul c nb with
  | none => ⟨none, [], nulibDefaultMemoryPtr⟩
  | some n =>
    let asked := nuMalloc builtin nulibDefaultMemoryPtr n reply
    { asked with
      ret := asked.ret.map fun block => { block with bytes := List.replicate n.toNat 0 } }

/-! ## Array objects -/

/-- `nu_G_dca`, with the offset of its data and the size of its elements. -/
structure DcaObject (μ : Type) where
  mem : μ
  off : UInt64
  es : UInt64
  pp : Option Block

def createWithMemory (mem : μ) (off es : UInt64) : DcaObject μ := ⟨mem, off, es, none⟩

def create (builtin : μ) (nulibDefaultMemoryPtr : Option μ) (off es : UInt64) :
    DcaObject μ × Option μ :=
  let (mem, nulibDefaultMemoryPtr) := nuMemoryGetDefault builtin nulibDefaultMemoryPtr
  (createWithMemory mem off es, nulibDefaultMemoryPtr)

end NuLab.Memory
