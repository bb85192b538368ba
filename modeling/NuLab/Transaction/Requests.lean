import NuLab.Transaction.CompactSize

/-! # Encoders without memory

An encoder makes a fixed sequence of requests for memory, whatever the answers are,
and appends what it asked room for where it gets it.  Integers are written through the
answer as it is, blocks of bytes only where it is not NULL.  So a run either goes on to
the end, with gaps, or ends at a write through NULL.
-/

namespace NuLab.Transaction

open NuLab.Bytes

variable {α γ : Type}

/-! ## Requests -/

/-- A request with the bytes that are to be written there. -/
inductive Emission where
  /-- They are written without a look at the answer. -/
  | unchecked (bytes : List UInt8) (nonempty : bytes ≠ [])
  | checked (bytes : List UInt8)

def Emission.bytes : Emission → List UInt8
  | .unchecked bytes _ => bytes
  | .checked bytes => bytes

/-- `none` is a write through NULL. -/
def Emission.run (mem : Allocator) (buf : Buffer) : Emission → Option Buffer
  | .unchecked bytes _ => (mem buf.calls).map fun _ => ⟨buf.bytes ++ bytes, buf.calls + 1⟩
  | .checked bytes =>
    some ⟨if (mem buf.calls).isSome then buf.bytes ++ bytes else buf.bytes, buf.calls + 1⟩

def emit (mem : Allocator) (buf : Buffer) (emissions : List Emission) : Option Buffer :=
  emissions.foldlM (Emission.run mem) buf

def encoding (emissions : List Emission) : List UInt8 := emissions.flatMap Emission.bytes

/-- From this number of calls on, every request for a positive number of bytes is served. -/
def Served (mem : Allocator) (calls : Nat) (emissions : List Emission) : Prop :=
  ∀ k emission, emissions[k]? = some emission → emission.bytes ≠ [] → (mem (calls + k)).isSome

theorem served_cons (mem : Allocator) (calls : Nat) (emission : Emission)
    (emissions : List Emission) :
    Served mem calls (emission :: emissions) ↔
      (emission.bytes ≠ [] → (mem calls).isSome) ∧ Served mem (calls + 1) emissions := by
  constructor
  · intro all
    refine ⟨fun nonempty => all 0 emission rfl nonempty, fun k later here nonempty => ?_⟩
    have place : calls + 1 + k = calls + (k + 1) := by omega
    rw [place]
    exact all (k + 1) later here nonempty
  · rintro ⟨first, rest⟩ k later here nonempty
    cases k with
    | zero =>
      cases here
      exact first nonempty
    | succ k =>
      have place : calls + (k + 1) = calls + 1 + k := by omega
      rw [place]
      exact rest k later here nonempty

theorem emission_grows {mem : Allocator} {buf after : Buffer} {emission : Emission}
    (run : emission.run mem buf = some after) :
    after.calls = buf.calls + 1 ∧ ((after.bytes = buf.bytes ++ emission.bytes ∧
      (emission.bytes ≠ [] → (mem buf.calls).isSome)) ∨
      (after.bytes = buf.bytes ∧ emission.bytes ≠ [] ∧ mem buf.calls = none)) := by
  cases emission with
  | unchecked bytes nonempty =>
    obtain ⟨fresh, granted, rfl⟩ := Option.map_eq_some_iff.mp run
    exact ⟨rfl, Or.inl ⟨rfl, fun _ => by rw [granted]; rfl⟩⟩
  | checked bytes =>
    cases run
    cases granted : mem buf.calls with
    | some fresh => exact ⟨rfl, Or.inl ⟨by simp [Emission.bytes], fun _ => rfl⟩⟩
    | none =>
      by_cases empty : bytes = []
      · exact ⟨rfl, Or.inl ⟨by simp [Emission.bytes, empty], fun nonempty => absurd empty nonempty⟩⟩
      · exact ⟨rfl, Or.inr ⟨by simp, empty, rfl⟩⟩

/-- What is left out is missing in the end. -/
theorem emit_length {mem : Allocator} {buf after : Buffer} {emissions : List Emission}
    (run : emit mem buf emissions = some after) :
    after.bytes.length ≤ buf.bytes.length + (encoding emissions).length := by
  induction emissions generalizing buf with
  | nil =>
    cases run
    exact Nat.le_add_right _ _
  | cons emission emissions inductionHypothesis =>
    obtain ⟨middle, first, rest⟩ := Option.bind_eq_some_iff.mp run
    have later := inductionHypothesis rest
    obtain ⟨-, ⟨same, -⟩ | ⟨same, -, -⟩⟩ := emission_grows first
    · rw [same, List.length_append] at later
      simp only [encoding, List.flatMap_cons, List.length_append] at later ⊢
      omega
    · rw [same] at later
      simp only [encoding, List.flatMap_cons, List.length_append] at later ⊢
      omega

/-- Everything is appended exactly when every request that matters is served. -/
theorem emit_all_iff (mem : Allocator) (buf : Buffer) (emissions : List Emission) :
    (∃ after, emit mem buf emissions = some after ∧ after.bytes = buf.bytes ++ encoding emissions) ↔
      Served mem buf.calls emissions := by
  induction emissions generalizing buf with
  | nil => exact ⟨fun _ _ _ here => (by cases here), fun _ => ⟨buf, rfl, (List.append_nil _).symm⟩⟩
  | cons emission emissions inductionHypothesis =>
    rw [served_cons]
    constructor
    · rintro ⟨after, run, all⟩
      obtain ⟨middle, first, rest⟩ := Option.bind_eq_some_iff.mp run
      obtain ⟨calls, ⟨same, served⟩ | ⟨same, nonempty, -⟩⟩ := emission_grows first
      · refine ⟨served, ?_⟩
        rw [← calls, ← inductionHypothesis middle]
        refine ⟨after, rest, ?_⟩
        rw [all, same, encoding, List.flatMap_cons, List.append_assoc]
        rfl
      · -- the bytes of this request are missing
        have short := emit_length rest
        have missing := List.length_pos_iff.mpr nonempty
        have lengths := congrArg List.length all
        simp only [encoding, List.flatMap_cons, List.length_append] at short lengths
        rw [same] at short
        omega
    · rintro ⟨served, later⟩
      have first : emission.run mem buf = some ⟨buf.bytes ++ emission.bytes, buf.calls + 1⟩ := by
        cases emission with
        | unchecked bytes nonempty =>
          obtain ⟨fresh, granted⟩ := Option.isSome_iff_exists.mp (served nonempty)
          simp only [Emission.run, granted, Option.map_some]
          rfl
        | checked bytes =>
          by_cases empty : bytes = []
          · simp [Emission.run, Emission.bytes, empty]
          · simp [Emission.run, Emission.bytes, served empty]
      obtain ⟨after, rest, all⟩ :=
        (inductionHypothesis ⟨buf.bytes ++ emission.bytes, buf.calls + 1⟩).mpr later
      refine ⟨after, by rw [emit, List.foldlM_cons, first]; exact rest, ?_⟩
      rw [all, List.append_assoc, encoding, encoding, List.flatMap_cons]

/-! ## Encoders as sequences of requests -/

/-- The encoder makes these requests, whatever it returns. -/
def Requests (encoder : Encoder α) (emissions : List Emission) : Prop :=
  ∀ mem buf, (encoder mem buf).map Prod.snd = emit mem buf emissions

/-- And it returns `a`. -/
def Emits (encoder : Encoder α) (emissions : List Emission) (a : α) : Prop :=
  ∀ mem buf, encoder mem buf = (emit mem buf emissions).map fun after => (a, after)

theorem Emits.requests {encoder : Encoder α} {emissions : List Emission} {a : α}
    (emits : Emits encoder emissions a) :
    Requests encoder emissions := by
  intro mem buf
  rw [emits, Option.map_map]
  exact Option.map_id'

@[simp] theorem emit_singleton (mem : Allocator) (buf : Buffer) (emission : Emission) :
    emit mem buf [emission] = emission.run mem buf := by
  simp [emit]

theorem emits_pure (a : α) : Emits (pure a) [] a := fun _ _ => rfl

/-- The result of the first encoder is ignored. -/
theorem Requests.bind {first : Encoder α} {next : α → Encoder γ}
    {emissions emissions' : List Emission} {c : γ} (requests : Requests first emissions)
    (emits : ∀ a, Emits (next a) emissions' c) :
    Emits (first >>= next) (emissions ++ emissions') c := by
  intro mem buf
  rw [bind_run, emit, List.foldlM_append]
  have front := requests mem buf
  cases run : first mem buf with
  | none =>
    rw [run, Option.map_none] at front
    rw [← emit, ← front]
    rfl
  | some result =>
    rw [run, Option.map_some] at front
    rw [← emit, ← front, Option.bind_some, emits]
    rfl

theorem Emits.bind {first : Encoder α} {next : α → Encoder γ} {emissions emissions' : List Emission}
    {a : α} {c : γ} (emits : Emits first emissions a) (emits' : Emits (next a) emissions' c) :
    Emits (first >>= next) (emissions ++ emissions') c := by
  intro mem buf
  rw [bind_run, emits, emit, emit, List.foldlM_append]
  cases run : emissions.foldlM (Emission.run mem) buf with
  | none => rfl
  | some after =>
    rw [Option.map_some, Option.bind_some, emits']
    rfl

theorem Requests.last {first : Encoder α} {emissions : List Emission}
    (requests : Requests first emissions) (c : γ) :
    Emits (first >>= fun _ => pure c) emissions c := by
  have both := requests.bind fun _ => emits_pure c
  rwa [List.append_nil] at both

/-- A loop over the elements in front of an array. -/
theorem emits_forEach {body : α → Encoder Unit} {emissions : α → List Emission} {count : Nat}
    {vec : List α} (enough : count ≤ vec.length)
    (emits : ∀ a ∈ vec.take count, Emits (body a) (emissions a) ()) :
    Emits (forEach body count vec) ((vec.take count).flatMap emissions) () := by
  induction count generalizing vec with
  | zero => exact emits_pure ()
  | succ count inductionHypothesis =>
    cases vec with
    | nil => cases enough
    | cons a vec =>
      rw [List.take_succ_cons] at emits ⊢
      rw [List.flatMap_cons]
      exact (emits a List.mem_cons_self).bind (inductionHypothesis (Nat.le_of_succ_le_succ enough)
        fun b member => emits b (List.mem_cons_of_mem a member))

/-- With memory an encoder writes the encoding of its requests. -/
theorem Emits.writes {encoder : Encoder α} {emissions : List Emission} {a : α}
    (emits : Emits encoder emissions a) :
    Writes encoder (some (encoding emissions)) a := by
  intro fresh buf
  obtain ⟨after, run, all⟩ := (emit_all_iff (served fresh) buf emissions).mpr fun _ _ _ _ => rfl
  refine ⟨after.calls, ?_⟩
  rw [emits, run, Option.map_some, Option.map_some, ← all]

/-! ## Integers and bytes -/

theorem toLE_ne_nil (width val : Nat) : toLE (width + 1) val ≠ [] := List.cons_ne_nil _ _

/-- An integer of so many bytes and one. -/
def Emission.integer (width val : Nat) : Emission :=
  .unchecked (toLE (width + 1) val) (toLE_ne_nil width val)

theorem consume_none {mem : Allocator} {buf : Buffer} (num : Nat) (refused : mem buf.calls = none) :
    nuBufferConsume num mem buf = some (none, { buf with calls := buf.calls + 1 }) := by
  rw [nuBufferConsume, refused]
  rfl

theorem consume_some {mem : Allocator} {buf : Buffer} {fresh : Nat → UInt8} (num : Nat)
    (granted : mem buf.calls = some fresh) :
    nuBufferConsume num mem buf =
      some (some buf.bytes.length, ⟨buf.bytes ++ (List.range num).map fresh, buf.calls + 1⟩) := by
  rw [nuBufferConsume, granted]
  rfl

/-- The bytes are written at once, or the write goes through NULL. -/
theorem emits_store (value : List UInt8) (nonempty : value ≠ []) (a : α) :
    Emits (do
      let out ← nuBufferConsume value.length
      store out 0 value
      return a) [.unchecked value nonempty] a := by
  intro mem buf
  rw [emit_singleton, Emission.run, bind_run]
  cases granted : mem buf.calls with
  | none =>
    rw [consume_none _ granted]
    rfl
  | some fresh =>
    rw [consume_some _ granted, Option.bind_some, bind_run, store_all _ _ _ _ _ (by simp)]
    rfl

theorem emits_appendInteger (width val : Nat) :
    Emits (appendInteger (width + 1) val) [.integer width val] 0 := by
  have emits := emits_store (toLE (width + 1) val) (toLE_ne_nil width val) (0 : Int)
  rwa [toLE_length] at emits

theorem emits_appendMarked (marker : UInt8) (width : Nat) (val : UInt64) :
    Emits (appendMarked marker width val) [.unchecked (marker :: toLE width val.toNat)
      (List.cons_ne_nil _ _)] 0 := by
  intro mem buf
  rw [emit_singleton, Emission.run, appendMarked, bind_run]
  cases granted : mem buf.calls with
  | none =>
    rw [consume_none _ granted]
    rfl
  | some fresh =>
    rw [consume_some _ granted, Option.bind_some, bind_run, store_first _ _ _ _ _ (by simp),
      Option.bind_some, bind_run, store_behind _ _ _ _ _ _ (by simp)]
    rfl

theorem varint_ne_nil (val : UInt64) : varint val ≠ [] := by
  obtain ⟨marker, tail, form, -⟩ := varint_cons val
  rw [form]
  exact List.cons_ne_nil _ _

def Emission.varint (val : UInt64) : Emission :=
  .unchecked (Transaction.varint val) (varint_ne_nil val)

theorem Emits.cast {encoder : Encoder α} {bytes bytes' : List UInt8} {nonempty : bytes ≠ []}
    {nonempty' : bytes' ≠ []} {a : α} (emits : Emits encoder [.unchecked bytes nonempty] a)
    (same : bytes' = bytes) : Emits encoder [.unchecked bytes' nonempty'] a := by
  subst same
  exact emits

theorem emits_bcAppendVarint (val : UInt64) : Emits (bcAppendVarint val) [.varint val] 0 := by
  unfold bcAppendVarint
  by_cases one : val < 0xFD
  · rw [if_pos one]
    exact (emits_store [val.toUInt8] (List.cons_ne_nil _ _) 0).cast (if_pos one)
  · rw [if_neg one]
    by_cases three : val < 0xFFFF
    · rw [if_pos three]
      exact (emits_appendMarked 0xFD 2 val).cast ((if_neg one).trans (if_pos three))
    · rw [if_neg three]
      by_cases five : val < 0xFFFFFFFF
      · rw [if_pos five]
        exact (emits_appendMarked 0xFE 4 val).cast
          ((if_neg one).trans ((if_neg three).trans (if_pos five)))
      · rw [if_neg five]
        exact (emits_appendMarked 0xFF 8 val).cast
          ((if_neg one).trans ((if_neg three).trans (if_neg five)))

/-- The bytes are written unless the answer is NULL, and the result is 1 where they are. -/
def Answers (encoder : Encoder Int) (value : List UInt8) : Prop :=
  ∀ mem buf, encoder mem buf =
    (emit mem buf [.checked value]).map fun after =>
      (if (mem buf.calls).isSome then 1 else 0, after)

theorem Answers.requests {encoder : Encoder Int} {value : List UInt8}
    (answers : Answers encoder value) :
    Requests encoder [.checked value] := by
  intro mem buf
  rw [answers, Option.map_map]
  exact Option.map_id'

theorem answers_bcAppendBytes {dat : List UInt8} {num : UInt64} (inside : num.toNat ≤ dat.length) :
    Answers (bcAppendBytes dat num) (dat.take num.toNat) := by
  intro mem buf
  rw [emit_singleton, Emission.run, bcAppendBytes, bind_run]
  cases granted : mem buf.calls with
  | none =>
    rw [consume_none _ granted]
    rfl
  | some fresh =>
    have value : readBytes dat num.toNat mem
      ⟨buf.bytes ++ (List.range num.toNat).map fresh, buf.calls + 1⟩ =
      some (dat.take num.toNat, ⟨buf.bytes ++ (List.range num.toNat).map fresh, buf.calls + 1⟩) :=
        if_pos inside
    rw [consume_some _ granted, Option.bind_some]
    simp only [Option.isSome_some, if_true]
    rw [bind_run, value, Option.bind_some, bind_run, store_all _ _ _ _ _ (by simpa using inside)]
    rfl

theorem answers_bcAppendHash32 (val : BcHash32) : Answers (bcAppendHash32 val) val.toList := by
  intro mem buf
  rw [emit_singleton, Emission.run, bcAppendHash32, bind_run]
  cases granted : mem buf.calls with
  | none =>
    rw [consume_none _ granted]
    rfl
  | some fresh =>
    rw [consume_some _ granted, Option.bind_some]
    simp only [Option.isSome_some, if_true]
    rw [bind_run, store_all _ _ _ _ _ (by simp)]
    rfl

theorem answers_bcAppendBlockHeader (hdr : BcBlockHeader) :
    Answers (bcAppendBlockHeader hdr) hdr.bytes := by
  intro mem buf
  rw [emit_singleton, Emission.run, bcAppendBlockHeader, bind_run]
  cases granted : mem buf.calls with
  | none =>
    rw [consume_none _ granted]
    rfl
  | some fresh =>
    rw [consume_some _ granted, Option.bind_some]
    simp only [Option.isSome_some, if_true]
    rw [bind_run, store_all _ _ _ _ _ (by simp [BcBlockHeader.bytes_length])]
    rfl

end NuLab.Transaction
