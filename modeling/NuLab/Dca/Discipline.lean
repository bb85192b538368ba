import NuLab.Dca.Bounds
import NuLab.Lib.Ledger

/-! # What the array asks of its allocator

The size that goes back to the allocator is computed from the capacity in the block
itself.  The ledger of an array holds its block with this size, whatever calls came
before, so every request is about the block that is live and the last release empties
the ledger.
-/

namespace NuLab.Dca

open NuLab.Ledger NuLab.Run

/-- `mem->ops` is called with NULL for a new block. -/
def MemCall.request : MemCall → Request Nat
  | .consume none nb a => .consume nb.toNat a
  | .consume (some ptr) nb a => .reconsume ptr nb.toNat a
  | .release ptr nb a => .release ptr nb.toNat a

/-- The array and the ledger of the allocator it uses. -/
structure Account where
  pp : Option Block
  ledger : List (Live Nat)
deriving DecidableEq

/-- One call on the array, with the requests it makes entered in the ledger. -/
def accountStep (off es : UInt64) (account : Account) (call : DcaOp × Option Grant) :
    Option Account := do
  let out ← dcaStep off es account.pp call
  let ledger ← serveAll (call.2.map Grant.addr) account.ledger (out.calls.map MemCall.request)
  some ⟨out.pp, ledger⟩

/-- The array's block, with the size that `nu_dca_release_all` would give back. -/
def owned (off : UInt64) : Option Block → List (Live Nat)
  | none => []
  | some p => [⟨p.addr, (off + nuDcaCapacityInBytes (some p)).toNat, alignofBase⟩]

/-- The requests of a call turn the ledger of the array before it into that
of the array behind it. -/
def Serves (off : UInt64) (pp : Option Block) (reply : Option Grant) (out : Outcome) : Prop :=
  serveAll (reply.map Grant.addr) (owned off pp) (out.calls.map MemCall.request) =
    some (owned off out.pp)

/-! ## The functions of `dca.c` -/

theorem serves_same {off : UInt64} {pp : Option Block} {reply : Option Grant} {out : Outcome}
    (silent : out.calls = []) (same : out.pp = pp) : Serves off pp reply out := by
  rw [Serves, silent, same, List.map_nil, serveAll_nil]

theorem capacity_of_base {p : Block} {base : DcaBase} (read : p.base = some base) :
    nuDcaCapacityInBytes (some p) = base.bcap := by
  simp [nuDcaCapacityInBytes, read]

theorem recordCapacity_owned {p q : Block} {nb : UInt64} (off : UInt64)
    (written : recordCapacity p nb = some q) :
    owned off (some q) = [⟨p.addr, (off + nb).toNat, alignofBase⟩] := by
  obtain ⟨base, -, written⟩ := Option.bind_eq_some_iff.mp written
  obtain ⟨read, -, addr⟩ := setBase_some written
  rw [owned, capacity_of_base read, addr]

/-- The block is asked for with the size that its capacity is to imply. -/
theorem reserveBytes_serves {off nb : UInt64} {pp : Option Block} {reply : Option Grant}
    {out : Outcome} (run : nuDcaReserveBytes pp off nb reply = some out) :
    Serves off pp reply out := by
  cases pp with
  | none =>
    cases reply with
    | none =>
      cases run
      rfl
    | some grant =>
      simp only [nuDcaReserveBytes, memConsume, Option.map_some] at run
      obtain ⟨zeroed, written, run⟩ := Option.bind_eq_some_iff.mp run
      obtain ⟨p, recorded, done⟩ := Option.bind_eq_some_iff.mp run
      cases done
      have addr := (setBase_some written).2.2
      rw [Serves, recordCapacity_owned off recorded, addr]
      rfl
  | some old =>
    obtain ⟨base, read, run⟩ := Option.bind_eq_some_iff.mp run
    by_cases small : base.bcap < nb
    · rw [if_pos small] at run
      cases reply with
      | none =>
        cases run
        exact (serveAll_singleton _ _ _).trans (serve_reconsume_failed (Live.mk old.addr _ _) _ _)
      | some grant =>
        obtain ⟨p, recorded, done⟩ := Option.bind_eq_some_iff.mp run
        cases done
        rw [Serves, recordCapacity_owned off recorded]
        exact (serveAll_singleton _ _ _).trans
          (serve_reconsume grant.addr (Live.mk old.addr _ _) _ _)
    · rw [if_neg small] at run
      cases run
      exact serves_same rfl rfl

theorem setBase_owned {p q : Block} {base new : DcaBase} (off : UInt64) (read : p.base = some base)
    (written : p.setBase new = some q) (kept : new.bcap = base.bcap) :
    owned off (some q) = owned off (some p) := by
  obtain ⟨readAgain, -, addr⟩ := setBase_some written
  rw [owned, owned, capacity_of_base readAgain, capacity_of_base read, kept, addr]

/-- The length is changed behind the requests. -/
theorem recordLength_serves {off len nb : UInt64} {pp : Option Block} {reply : Option Grant}
    {out after : Outcome} (serves : Serves off pp reply out)
    (run : recordLength out len nb = some after) : Serves off pp reply after := by
  obtain ⟨ret, pp', calls⟩ := out
  cases ret with
  | none =>
    cases run
    exact serves
  | some data =>
    cases pp' with
    | none => cases run
    | some p =>
      obtain ⟨base, read, run⟩ := Option.bind_eq_some_iff.mp run
      obtain ⟨q, written, done⟩ := Option.bind_eq_some_iff.mp run
      cases done
      rw [Serves, setBase_owned off read written rfl]
      exact serves

theorem consumeBytes_serves {off nb : UInt64} {pp : Option Block} {reply : Option Grant}
    {out : Outcome} (run : nuDcaConsumeBytes pp off nb reply = some out) :
    Serves off pp reply out := by
  obtain ⟨base, read, run⟩ := Option.bind_eq_some_iff.mp run
  dsimp only at run
  split at run
  · cases run
    exact serves_same rfl rfl
  · cases pp with
    | none =>
      obtain ⟨middle, reserve, run⟩ := Option.bind_eq_some_iff.mp run
      exact recordLength_serves (reserveBytes_serves reserve) run
    | some p =>
      dsimp only at run
      split at run
      · obtain ⟨middle, reserve, run⟩ := Option.bind_eq_some_iff.mp run
        exact recordLength_serves (reserveBytes_serves reserve) run
      · obtain ⟨middle, same, run⟩ := Option.bind_eq_some_iff.mp run
        cases same
        exact recordLength_serves (serves_same rfl rfl) run

/-! ## The calls -/

theorem mboxReserve_serves {off es nelems : UInt64} {pp : Option Block} {reply : Option Grant}
    {out : Outcome} (run : nuMboxDcaReserve pp off es nelems reply = some out) :
    Serves off pp reply out := by
  unfold nuMboxDcaReserve at run
  split at run
  · cases run
    exact serves_same rfl rfl
  · exact reserveBytes_serves run

theorem dcaStep_serves {off es : UInt64} {pp : Option Block} {call : DcaOp × Option Grant}
    {out : Outcome} (run : dcaStep off es pp call = some out) : Serves off pp call.2 out := by
  obtain ⟨op, reply⟩ := call
  cases op with
  | reserve nelems => exact mboxReserve_serves run
  | extend nelems =>
    simp only [dcaStep, nuMboxDcaExtend] at run
    split at run
    · cases run
      exact serves_same rfl rfl
    · obtain ⟨base, read, run⟩ := Option.bind_eq_some_iff.mp run
      split at run
      · cases run
        exact serves_same rfl rfl
      · exact mboxReserve_serves run
  | consume nelems =>
    simp only [dcaStep, nuMboxDcaConsume] at run
    split at run
    · cases run
      exact serves_same rfl rfl
    · exact consumeBytes_serves run
  | clean =>
    cases pp with
    | none =>
      cases run
      exact serves_same rfl rfl
    | some p =>
      obtain ⟨base, read, run⟩ := Option.bind_eq_some_iff.mp run
      obtain ⟨q, written, done⟩ := Option.bind_eq_some_iff.mp run
      cases done
      exact congrArg some (setBase_owned off read written rfl).symm
  | release =>
    cases pp with
    | none =>
      cases run
      exact serves_same rfl rfl
    | some p =>
      obtain ⟨base, read, done⟩ := Option.bind_eq_some_iff.mp run
      cases done
      rw [← capacity_of_base read]
      exact (serveAll_singleton _ _ _).trans (serve_release _ (Live.mk p.addr _ _))

/-! ## Runs -/

/-- The ledger follows the array through a whole run. -/
theorem account_run {off es : UInt64} (header : 16 ≤ off.toNat) (positive : 0 < es.toNat)
    {pp : Option Block} (intact : IntactArray off pp) {calls : List (DcaOp × Option Grant)}
    (fits : Along (dcaStep off es) Outcome.pp (NoWrap off es) pp calls) :
    ∃ after, run (accountStep off es) id ⟨pp, owned off pp⟩ calls = some ⟨after, owned off after⟩ ∧
      IntactArray off after := by
  induction calls generalizing pp with
  | nil => exact ⟨pp, rfl, intact⟩
  | cons call calls inductionHypothesis =>
    obtain ⟨noWrap, rest⟩ := fits
    obtain ⟨out, step, -, kept⟩ := dcaStep_safe off es header positive pp call intact noWrap
    obtain ⟨after, ran, intact'⟩ := inductionHypothesis kept (rest out step)
    refine ⟨after, ?_, intact'⟩
    have entered : accountStep off es ⟨pp, owned off pp⟩ call =
        some ⟨out.pp, owned off out.pp⟩ := by
      simp only [accountStep, step, Option.bind_eq_bind, Option.bind_some]
      rw [show serveAll _ _ _ = _ from dcaStep_serves step, Option.bind_some]
    rw [run, entered, Option.bind_some]
    exact ran

/-- From the empty array on, every request is about the block that is live, and a
last release leaves none. -/
theorem dca_discipline (off es : UInt64) (header : 16 ≤ off.toNat) (positive : 0 < es.toNat)
    (calls : List (DcaOp × Option Grant))
    (fits : Along (dcaStep off es) Outcome.pp (NoWrap off es) none calls) :
    ∃ after, run (accountStep off es) id ⟨none, []⟩ calls = some after ∧
      after.ledger = owned off after.pp ∧
      ∀ reply, accountStep off es after (.release, reply) = some ⟨none, []⟩ := by
  obtain ⟨pp, ran, intact⟩ := account_run header positive (intactArray_none off) fits
  refine ⟨⟨pp, owned off pp⟩, ran, rfl, ?_⟩
  intro reply
  obtain ⟨requests, release⟩ := mboxRelease_spec off pp intact
  have step : dcaStep off es pp (.release, reply) = some ⟨none, none, requests⟩ := release
  simp only [accountStep, step, Option.bind_eq_bind, Option.bind_some]
  rw [show serveAll _ _ _ = _ from dcaStep_serves step, Option.bind_some]
  rfl

theorem dca_discipline_moved :
    ∃ after, run (accountStep 16 1) id ⟨none, []⟩
        [(.reserve 3, some ⟨4096, fun _ => 0⟩), (.reserve 8, none),
          (.reserve 8, some ⟨8192, fun _ => 0⟩)] = some after ∧
      after.ledger = owned 16 after.pp ∧ ∀ reply, accountStep 16 1 after (.release, reply) =
        some ⟨none, []⟩ := by
  have fits : (16 : UInt64).toNat + (8 : UInt64).toNat * (1 : UInt64).toNat ≤ SIZE_MAX := by decide
  exact dca_discipline 16 1 (by decide) (by decide) _
    ⟨fun _ _ _ => by decide, fun _ _ => ⟨fun _ _ _ => fits,
      fun _ _ => ⟨fun _ _ _ => fits, fun _ _ => trivial⟩⟩⟩

end NuLab.Dca
