import NuLab.Solver.Pool
import NuLab.Int256
import NuLab.Sha256.Digest

/-! # The nonce search of `main_block_solver.c`

`find_nonce` hashes the first 76 bytes of the header once and continues from
that context for every nonce.  It returns the smallest nonce of its range whose
double hash is at most the target.
-/

namespace NuLab.Solver

open NuLab.Bytes NuLab.Sha256

/-- The body of the search loop from `ctx = tmp_ctx` to the second `sha256_result`. -/
def nonceHash (tmpCtx : Sha256Ctx) (nonce : List UInt8) : Option (Vector UInt8 32) := do
  let (_, ctx) ← sha256Update tmpCtx nonce 4
  let (_, ctx) ← sha256Finish ctx
  let tmpHash := (sha256Result ctx).2
  let ctx := (sha256Reset ctx).2
  let (_, ctx) ← sha256Update ctx tmpHash.toList 32
  let (_, ctx) ← sha256Finish ctx
  some (sha256Result ctx).2

def withNonce (header : BcBlockHeader) (nonce : UInt32) : BcBlockHeader :=
  { header with nonce := nonce }

/-- The loop `for (; n <= task->nonce_max; ++n)`. -/
def findNonceLoop (tmpCtx : Sha256Ctx) (task : FindNonceTask) (n : UInt64) :
    Option (Int × FindNonceTask) :=
  if _running : n ≤ task.nonceMax.toUInt64 then
    -- the nonce that is found stays in the header of the task
    let task' := { task with header := withNonce task.header n.toUInt32 }
    match nonceHash tmpCtx (task'.header.bytes.drop 76) with
    | none => none
    | some hash =>
      if i256Le hash task.target then some (1, task') else findNonceLoop tmpCtx task' (n + 1)
  else some (0, task)
termination_by task.nonceMax.toNat + 1 - n.toNat
decreasing_by
  have order := UInt64.le_iff_toNat_le.mp _running
  have := task.nonceMax.toNat_lt
  rw [UInt32.toNat_toUInt64] at order
  rw [UInt64.toNat_add]
  simp only [UInt64.reduceToNat]
  omega

def findNonce (task : FindNonceTask) : Option (Int × FindNonceTask) := do
  let tmpCtx := (sha256Reset Sha256Ctx.zero).2
  let (_, tmpCtx) ← sha256Update tmpCtx task.header.bytes 76
  findNonceLoop tmpCtx task task.nonceMin.toUInt64

/-! ## What a search finds -/

/-- The double hash of the header, as a little-endian number, is at most the target. -/
def Solves (target : BcHash32) (header : BcBlockHeader) : Prop :=
  ofLE (Fips180.sha256 (Fips180.sha256 header.bytes)) ≤ ofLE target.toList

/-- The part of the header before the nonce. -/
def front (header : BcBlockHeader) : List UInt8 :=
  toLE 4 header.version.toNat ++ (header.hashPrevBlock.toList ++ (header.hashMerkleRoot.toList ++
    (toLE 4 header.timestamp.toNat ++ toLE 4 header.bits.toNat)))

theorem front_length (header : BcBlockHeader) : (front header).length = 76 := by simp [front]

theorem bytes_eq_front (header : BcBlockHeader) :
    header.bytes = front header ++ toLE 4 header.nonce.toNat := by
  simp [BcBlockHeader.bytes, front]

@[simp] theorem front_withNonce (header : BcBlockHeader) (nonce : UInt32) :
    front (withNonce header nonce) = front header := rfl

/-- The last four bytes of a header complete what is hashed. -/
theorem front_update {tmpCtx : Sha256Ctx} {header : BcBlockHeader}
    (hashed : Hashed tmpCtx (front header)) :
    ∃ updated, sha256Update tmpCtx (header.bytes.drop 76) 4 = some (0, updated) ∧
      Hashed updated header.bytes := by
  have length := front_length header
  have nonce : header.bytes.drop 76 = toLE 4 header.nonce.toNat := by
    rw [bytes_eq_front, List.drop_left' length]
  rw [nonce]
  obtain ⟨updated, update, whole⟩ :=
    sha256Update_hashed tmpCtx (front header) (toLE 4 header.nonce.toNat) 4 hashed
    (by simp) (by rw [length]; decide) (by rw [length]; decide)
  rw [show (4 : UInt32).toNat = 4 from rfl, List.take_of_length_le (by simp),
    ← bytes_eq_front] at whole
  exact ⟨updated, update, whole⟩

/-- The first 76 bytes, hashed from a reset context. -/
theorem front_hashed (header : BcBlockHeader) :
    ∃ tmpCtx, sha256Update (sha256Reset Sha256Ctx.zero).2 header.bytes 76 = some (0, tmpCtx) ∧
      Hashed tmpCtx (front header) := by
  obtain ⟨tmpCtx, update, hashed⟩ :=
    sha256Update_hashed _ [] header.bytes 76 (sha256Reset_hashed Sha256Ctx.zero)
    (by rw [BcBlockHeader.bytes_length]; decide) (by decide) (Or.inl rfl)
  have taken : header.bytes.take (76 : UInt32).toNat = front header := by
    rw [bytes_eq_front, show (76 : UInt32).toNat = 76 from rfl,
      List.take_left' (front_length header)]
  rw [List.nil_append, taken] at hashed
  exact ⟨tmpCtx, update, hashed⟩

theorem nonceHash_spec (tmpCtx : Sha256Ctx) (header : BcBlockHeader)
    (hashed : Hashed tmpCtx (front header)) :
    ∃ hash, nonceHash tmpCtx (header.bytes.drop 76) = some hash ∧
      hash.toList = Fips180.sha256 (Fips180.sha256 header.bytes) := by
  obtain ⟨updated, update, whole⟩ := front_update hashed
  obtain ⟨finished, finish, inner⟩ := sha256Finish_hashed updated _ whole
  -- the second hash is that of the 32 bytes of the first, from a context that is reset again
  obtain ⟨updated2, update2, whole2⟩ :=
    sha256Update_hashed (sha256Reset finished).2 [] (sha256Result finished).2.toList
    32 (sha256Reset_hashed finished) (by simp) (by decide) (Or.inl rfl)
  rw [List.nil_append, List.take_of_length_le (by simp), inner] at whole2
  obtain ⟨finished2, finish2, outer⟩ := sha256Finish_hashed updated2 _ whole2
  refine ⟨(sha256Result finished2).2, ?_, outer⟩
  simp only [nonceHash, update, finish, update2, finish2, Option.bind_eq_bind, Option.bind_some]

/-- What a search over the nonces from `n` on returns for `task`. -/
inductive Searched (task : FindNonceTask) (n : Nat) : Int × FindNonceTask → Prop where
  | found (m : UInt32) (low : n ≤ m.toNat) (high : m ≤ task.nonceMax)
      (solves : Solves task.target (withNonce task.header m))
      (smallest : ∀ k : UInt32, n ≤ k.toNat → k < m →
        ¬ Solves task.target (withNonce task.header k)) :
      Searched task n (1, { task with header := withNonce task.header m })
  | nothing (after : FindNonceTask)
      (none : ∀ k : UInt32, n ≤ k.toNat → k ≤ task.nonceMax →
        ¬ Solves task.target (withNonce task.header k)) :
      Searched task n (0, after)

theorem searched_next {task task' : FindNonceTask} {n : Nat} {result : Int × FindNonceTask}
    {m : UInt32} (here : m.toNat = n)
    (same : task' = { task with header := withNonce task.header m })
    (unsolved : ¬ Solves task.target (withNonce task.header m))
    (rest : Searched task' (n + 1) result) :
    Searched task n result := by
  subst same
  have skip : ∀ k : UInt32, n ≤ k.toNat → k = m ∨ n + 1 ≤ k.toNat := by
    intro k low
    cases Nat.eq_or_lt_of_le low with
    | inl equal => exact Or.inl (UInt32.toNat_inj.mp (by omega))
    | inr greater => exact Or.inr greater
  cases rest with
  | found k low high solves smallest =>
    refine Searched.found k (by omega) high solves fun j lowJ below => ?_
    rcases skip j lowJ with rfl | later
    · exact unsolved
    · exact smallest j later below
  | nothing after none =>
    refine Searched.nothing after fun k low high => ?_
    rcases skip k low with rfl | later
    · exact unsolved
    · exact none k later high

theorem findNonceLoop_spec (tmpCtx : Sha256Ctx) (task : FindNonceTask) (n : UInt64)
    (hashed : Hashed tmpCtx (front task.header)) :
    ∃ result, findNonceLoop tmpCtx task n = some result ∧ Searched task n.toNat result := by
  have bound := task.nonceMax.toNat_lt
  rw [findNonceLoop]
  by_cases running : n ≤ task.nonceMax.toUInt64
  · have order := UInt64.le_iff_toNat_le.mp running
    rw [UInt32.toNat_toUInt64] at order
    -- the counter has 64 bits and ends one above `nonceMax`, so that it is cut without a loss
    have here : n.toUInt32.toNat = n.toNat := by rw [UInt64.toNat_toUInt32]; omega
    obtain ⟨hash, compute, value⟩ := nonceHash_spec tmpCtx (withNonce task.header n.toUInt32) hashed
    simp only [dif_pos running, compute]
    have meaning : i256Le hash task.target = true ↔
        Solves task.target (withNonce task.header n.toUInt32) := by
      rw [i256Le_iff, value, Solves]
    by_cases solved : i256Le hash task.target = true
    · rw [if_pos solved]
      refine ⟨_, rfl, Searched.found n.toUInt32 (by omega)
        (by rw [UInt32.le_iff_toNat_le, here]; exact order)
        (meaning.mp solved) fun k low below => ?_⟩
      rw [UInt32.lt_iff_toNat_lt] at below
      omega
    · rw [if_neg solved]
      have next : (n + 1).toNat = n.toNat + 1 := by
        rw [UInt64.toNat_add]; simp only [UInt64.reduceToNat]; omega
      obtain ⟨result, run, searched⟩ := findNonceLoop_spec tmpCtx
        { task with header := withNonce task.header n.toUInt32 } (n + 1) hashed
      rw [next] at searched
      exact ⟨result, run, searched_next here rfl (mt meaning.mpr solved) searched⟩
  · rw [dif_neg running]
    refine ⟨_, rfl, Searched.nothing task fun k low high => ?_⟩
    rw [UInt64.le_iff_toNat_le, UInt32.toNat_toUInt64] at running
    rw [UInt32.le_iff_toNat_le] at high
    omega
termination_by task.nonceMax.toNat + 1 - n.toNat
decreasing_by
  have order := UInt64.le_iff_toNat_le.mp running
  rw [UInt32.toNat_toUInt64] at order
  rw [next]
  omega

/-- A search ends, and finds the smallest nonce of its range that solves the header. -/
theorem findNonce_spec (task : FindNonceTask) :
    ∃ result, findNonce task = some result ∧ Searched task task.nonceMin.toNat result := by
  obtain ⟨tmpCtx, update, hashed⟩ := front_hashed task.header
  obtain ⟨result, run, searched⟩ := findNonceLoop_spec tmpCtx task task.nonceMin.toUInt64 hashed
  rw [UInt32.toNat_toUInt64] at searched
  refine ⟨result, ?_, searched⟩
  simp only [findNonce, update, run, Option.bind_eq_bind, Option.bind_some]

/-! ## Against `hash256_digest` -/

/-- `hash256_digest` of the header with this nonce is, as a little-endian
number, at most the target. -/
def Qualifies (task : FindNonceTask) (n : UInt32) : Prop :=
  ∃ sum, hash256Digest (withNonce task.header n).bytes 80 (Vector.replicate 32 0) = some (0, sum) ∧
    ofLE sum.toList ≤ ofLE task.target.toList

theorem qualifies_iff (task : FindNonceTask) (n : UInt32) :
    Qualifies task n ↔ Solves task.target (withNonce task.header n) := by
  have length := BcBlockHeader.bytes_length (withNonce task.header n)
  obtain ⟨sum, run, value⟩ :=
    hash256Digest_spec (withNonce task.header n).bytes 80 (Vector.replicate 32 0)
    (by rw [length]; decide)
  rw [List.take_of_length_le (by rw [length]; decide)] at value
  unfold Qualifies Solves
  rw [← value]
  constructor
  · rintro ⟨sum', run', below⟩
    rw [run] at run'
    cases run'
    exact below
  · intro below
    exact ⟨sum, run, below⟩

/-- A search agrees with hashing the whole header for every nonce of its range. -/
theorem findNonce_smallest (task : FindNonceTask) :
    ∃ ret after, findNonce task = some (ret, after) ∧ (ret = 0 ∨ ret = 1) ∧
      (ret = 1 ↔ ∃ n, task.nonceMin ≤ n ∧ n ≤ task.nonceMax ∧ Qualifies task n) ∧
      (ret = 1 → ∃ n, task.nonceMin ≤ n ∧ n ≤ task.nonceMax ∧ Qualifies task n ∧
        (∀ k, task.nonceMin ≤ k → k < n → ¬ Qualifies task k) ∧
        after = { task with header := { task.header with nonce := n } }) ∧
      (ret = 0 → ∀ n, task.nonceMin ≤ n → n ≤ task.nonceMax → ¬ Qualifies task n) := by
  obtain ⟨⟨ret, after⟩, run, searched⟩ := findNonce_spec task
  refine ⟨ret, after, run, ?_⟩
  simp only [qualifies_iff, UInt32.le_iff_toNat_le (a := task.nonceMin)]
  cases searched with
  | found m low high solves smallest =>
    have found : ∃ n, task.nonceMin.toNat ≤ n.toNat ∧ n ≤ task.nonceMax ∧
        Solves task.target (withNonce task.header n) := ⟨m, low, high, solves⟩
    exact ⟨Or.inr rfl, ⟨fun _ => found, fun _ => rfl⟩, fun _ =>
      ⟨m, low, high, solves, smallest, rfl⟩, fun wrong => by cases wrong⟩
  | nothing _ none =>
    refine ⟨Or.inl rfl, ⟨fun wrong => (by cases wrong), ?_⟩, fun wrong =>
      (by cases wrong), fun _ => none⟩
    rintro ⟨n, low, high, solves⟩
    exact absurd solves (none n low high)

end NuLab.Solver
