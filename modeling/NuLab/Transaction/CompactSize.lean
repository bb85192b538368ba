import NuLab.Transaction.ExtraCount

/-! # Canonical lengths

A decoder of the format rejects a length in a longer form than it needs.  The
encoder writes two lengths so, the largest ones of the forms with two and with four
bytes.
-/

namespace NuLab.Transaction

open NuLab.Bytes NuLab.Parse

/-- Rejects a value that a shorter form can hold. -/
def atLeast (least val : Nat) : Parser UInt8 UInt64 := fun rest =>
  if least ≤ val then some (UInt64.ofNat val, rest) else none

def readCompactSize : Parser UInt8 UInt64 := andThen (number 1) fun head =>
  if head < 0xFD then done (UInt64.ofNat head)
  else if head = 0xFD then andThen (number 2) (atLeast 0xFD)
  else if head = 0xFE then andThen (number 4) (atLeast 0x10000)
  else andThen (number 8) (atLeast 0x100000000)

/-! ## The decoder on the four forms -/

theorem readCompactSize_one {val : UInt64} (bound : val.toNat < 0xFD) (rest : List UInt8) :
    readCompactSize (toLE 1 val.toNat ++ rest) = some (val, rest) := by
  rw [readCompactSize, andThen, reads_number 1 (by omega), Option.bind_some]
  simp only [if_pos bound, done, UInt64.ofNat_toNat]

/-- Behind a marker the value has to be as large as the marker asks for. -/
theorem readCompactSize_marked {marker : UInt8} {width least : Nat} {val : UInt64}
    (chosen : (marker = 0xFD ∧ width = 2 ∧ least = 0xFD) ∨
      (marker = 0xFE ∧ width = 4 ∧ least = 0x10000) ∨
      marker = 0xFF ∧ width = 8 ∧ least = 0x100000000)
    (fits : val.toNat < 256 ^ width) (rest : List UInt8) :
    readCompactSize ((marker :: toLE width val.toNat) ++ rest) = some (val, rest) ↔
      least ≤ val.toNat := by
  have head : number 1 ([marker] ++ (toLE width val.toNat ++ rest)) =
      some (marker.toNat, toLE width val.toNat ++ rest) := by
    have reads := reads_number 1 marker.toNat_lt
    rw [toLE, toLE, UInt8.ofNat_toNat] at reads
    exact reads _
  have marked : andThen (number width) (atLeast least) (toLE width val.toNat ++ rest) =
      atLeast least val.toNat rest := by
    rw [andThen, reads_number width fits, Option.bind_some]
  have value : readCompactSize ((marker :: toLE width val.toNat) ++ rest) =
      atLeast least val.toNat rest := by
    rw [List.cons_append, ← List.singleton_append, readCompactSize, andThen, head, Option.bind_some]
    dsimp only
    obtain ⟨rfl, rfl, rfl⟩ | ⟨rfl, rfl, rfl⟩ | ⟨rfl, rfl, rfl⟩ := chosen
    · rw [if_neg (by decide), if_pos (by decide), marked]
    · rw [if_neg (by decide), if_neg (by decide), if_pos (by decide), marked]
    · rw [if_neg (by decide), if_neg (by decide), if_neg (by decide), marked]
  rw [value, atLeast, UInt64.ofNat_toNat]
  by_cases enough : least ≤ val.toNat
  · simp [enough]
  · simp [enough]

/-! ## What the encoder writes -/

theorem wide_iff (v : UInt64) : Wide v ↔ v.toNat = 0xFFFF ∨ v.toNat = 0xFFFFFFFF := by
  simp only [Wide, ← UInt64.toNat_inj]
  rfl

theorem readCompactSize_varint_iff (v : UInt64) (rest : List UInt8) :
    readCompactSize (varint v ++ rest) = some (v, rest) ↔ ¬ Wide v := by
  have bound := v.toNat_lt
  rw [wide_iff]
  cases varint_form v with
  | one bound form =>
    rw [form]
    simp only [readCompactSize_one bound, true_iff]
    omega
  | three low bound form =>
    rw [form, readCompactSize_marked (Or.inl ⟨rfl, rfl, rfl⟩) (by omega)]
    omega
  | five low bound form =>
    rw [form, readCompactSize_marked (Or.inr (Or.inl ⟨rfl, rfl, rfl⟩)) (by omega)]
    omega
  | nine low form =>
    rw [form, readCompactSize_marked (Or.inr (Or.inr ⟨rfl, rfl, rfl⟩)) (by omega)]
    omega

theorem varint_eq_compactSize_iff (v : UInt64) : varint v = compactSize v ↔ ¬ Wide v := by
  constructor
  · rintro same (rfl | rfl)
    · revert same
      decide
    · revert same
      decide
  · intro narrow
    exact (compactSize_eq narrow).symm

/-- The encoder appends what such a decoder reads as the value. -/
def ReadsCanonically (v : UInt64) : Prop :=
  ∀ fresh buf rest, ∃ code calls, bcAppendVarint v (served fresh) buf =
    some (0, ⟨buf.bytes ++ code, calls⟩) ∧
    readCompactSize (code ++ rest) = some (v, rest)

theorem readsCanonically_iff (v : UInt64) : ReadsCanonically v ↔ ¬ Wide v := by
  constructor
  · intro reads
    obtain ⟨code, calls, run, read⟩ := reads (fun _ _ => 0) ⟨[], 0⟩ []
    obtain ⟨calls', run'⟩ := writes_bcAppendVarint v (fun _ _ => 0) ⟨[], 0⟩
    rw [run'] at run
    simp only [Option.map_some, List.nil_append, Option.some.injEq, Prod.mk.injEq,
      Buffer.mk.injEq] at run
    rw [← run.2.1] at read
    exact (readCompactSize_varint_iff v []).mp read
  · intro narrow fresh buf rest
    obtain ⟨calls, run⟩ := writes_bcAppendVarint v fresh buf
    exact ⟨varint v, calls, run, (readCompactSize_varint_iff v rest).mpr narrow⟩

/-- The encoding is the canonical one, and a strict decoder accepts it, exactly when the value is
not the largest of the three-byte or of the five-byte form. -/
theorem bcAppendVarint_canonical_iff (v : UInt64) :
    (Writes (bcAppendVarint v) (some (compactSize v)) 0 ↔ v ≠ 0xFFFF ∧ v ≠ 0xFFFFFFFF) ∧
      (ReadsCanonically v ↔ v ≠ 0xFFFF ∧ v ≠ 0xFFFFFFFF) := by
  have narrow : ¬ Wide v ↔ v ≠ 0xFFFF ∧ v ≠ 0xFFFFFFFF := not_or
  rw [readsCanonically_iff, narrow, and_iff_left Iff.rfl, ← narrow, ← varint_eq_compactSize_iff]
  constructor
  · intro writes
    exact Option.some.inj ((writes_bcAppendVarint v).unique writes)
  · intro same
    rw [← same]
    exact writes_bcAppendVarint v

/-- 0xFFFF is written in five bytes. -/
theorem bcAppendVarint_overlong :
    ¬ ∀ v, Writes (bcAppendVarint v) (some (compactSize v)) 0 ∧ ReadsCanonically v := by
  intro always
  have same := Option.some.inj ((writes_bcAppendVarint 0xFFFF).unique (always 0xFFFF).1)
  revert same
  decide

end NuLab.Transaction
