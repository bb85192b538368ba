import NuLab.Json.Dropped

/-! # Safety on arbitrary text

The searches run to the NUL, but a value that reaches behind the end of the span is not
found, and a round that delivers goes on behind the value that reaches furthest.  This
holds whatever the text is and whatever the callback does.
-/

namespace NuLab.Json

open NuLab.CString

variable {σ : Type}

/-! ## Rounds -/

/-- `scanLoop` with so many rounds at most; `none` if it does not end within them. -/
def scanWithin (memory : List UInt8) (fin : Nat) (cb : σ → BcTxView → Int × σ) (rounds tmp : Nat)
    (userPtr : σ) : Option (List BcTxView × σ) :=
  if tmp < fin then
    match rounds with
    | 0 => none
    | rounds + 1 =>
      match scanRound memory tmp fin with
      | none => some ([], userPtr)
      | some (tx, next) =>
        let (ec, userPtr) := cb userPtr tx
        -- a refusal ends the loop within this round
        if ec ≠ 0 then some ([tx], userPtr)
        else (scanWithin memory fin cb rounds next userPtr).map fun (calls, userPtr) =>
          (tx :: calls, userPtr)
  else some ([], userPtr)

/-- `jsonBlocktemplateTxScan` with so many rounds of the loop at most -/
def jsonBlocktemplateTxScanWithin (rounds : Nat) (memory : List UInt8) (json : NuCspan)
    (cb : σ → BcTxView → Int × σ) (userPtr : σ) : Option (Int × List BcTxView × σ) :=
  match strstr memory json.beg tagTxns with
  | none => some (-1, [], userPtr)
  | some tmp =>
    (scanWithin memory json.fin cb rounds (tmp + (tagTxns.length + 1)) userPtr).map (Prod.mk 0)

section

variable {memory : List UInt8} {fin : Nat} {cb : σ → BcTxView → Int × σ}

/-- A round takes at least one character, so there are no more rounds than characters. -/
theorem scanWithin_enough {rounds tmp : Nat} (userPtr : σ) (enough : fin - tmp ≤ rounds) :
    scanWithin memory fin cb rounds tmp userPtr = some (scanLoop memory fin cb tmp userPtr) := by
  induction rounds generalizing tmp userPtr with
  | zero =>
    have outside : ¬ tmp < fin := by omega
    rw [scanLoop_stops userPtr fun inside => absurd inside outside, scanWithin, if_neg outside]
  | succ rounds inductionHypothesis =>
    by_cases inside : tmp < fin
    · rw [scanWithin, if_pos inside]
      cases round : scanRound memory tmp fin with
      | none => rw [scanLoop_stops userPtr fun _ => round]
      | some found =>
        obtain ⟨tx, next⟩ := found
        -- what is left of the span behind `next` is shorter, so one round less is enough for it
        have progress := scanRound_progress round
        by_cases accepted : (cb userPtr tx).1 = 0
        · have rest : scanWithin memory fin cb rounds next (cb userPtr tx).2 = _ :=
            inductionHypothesis (cb userPtr tx).2 (by omega)
          rw [scanLoop_accepted inside round accepted]
          simp [accepted, rest]
        · rw [scanLoop_refused inside round accepted]
          simp [accepted]
    · rw [scanLoop_stops userPtr fun inside' => absurd inside' inside, scanWithin, if_neg inside]

end

/-! ## Spans -/

/-- The calls of the callback stay in the span, and each begins where the spans of those
before it have ended. -/
structure SafeCalls (json : NuCspan) (calls : List BcTxView) : Prop where
  inside : ∀ tx ∈ calls, ∀ tag, json.beg ≤ (tx.span tag).beg ∧
    (tx.span tag).beg ≤ (tx.span tag).fin ∧
    (tx.span tag).fin ≤ json.fin
  apart : calls.Pairwise fun earlier later => ∀ tag, furthest earlier ≤ (later.span tag).beg

namespace SafeCalls

variable {json : NuCspan} {calls : List BcTxView} {tx : BcTxView}

theorem nil (json : NuCspan) : SafeCalls json [] where
  inside := by simp
  apart := List.Pairwise.nil

/-- Seen from further in front. -/
theorem mono (safe : SafeCalls json calls) {beg : Nat} (front : beg ≤ json.beg) :
    SafeCalls ⟨beg, json.fin⟩ calls where
  inside tx member tag := by
    obtain ⟨behind, ordered, before⟩ := safe.inside tx member tag
    exact ⟨Nat.le_trans front behind, ordered, before⟩
  apart := safe.apart

theorem cons {cursor fin : Nat} (safe : SafeCalls ⟨furthest tx, fin⟩ calls)
    (spans : ∀ tag, cursor ≤ (tx.span tag).beg ∧ (tx.span tag).beg ≤ (tx.span tag).fin ∧
      (tx.span tag).fin ≤ fin)
    (progress : cursor ≤ furthest tx) : SafeCalls ⟨cursor, fin⟩ (tx :: calls) where
  inside := List.forall_mem_cons.mpr ⟨spans, (safe.mono progress).inside⟩
  apart :=
    List.pairwise_cons.mpr ⟨fun later member tag => (safe.inside later member tag).1, safe.apart⟩

end SafeCalls

/-- The spans of one round. -/
theorem scanRound_spans {memory : List UInt8} {tmp fin next : Nat} {tx : BcTxView}
    (round : scanRound memory tmp fin = some (tx, next)) :
    furthest tx = next ∧
      ∀ tag, tmp ≤ (tx.span tag).beg ∧ (tx.span tag).beg ≤ (tx.span tag).fin ∧
        (tx.span tag).fin ≤ fin := by
  rw [scanRound_eq] at round
  obtain ⟨tx', view, same⟩ := Option.map_eq_some_iff.mp round
  cases same
  refine ⟨rfl, fun tag => ?_⟩
  obtain ⟨behind, ordered, before⟩ := viewIn_spans view tag
  exact ⟨Nat.le_trans (Nat.le_add_right _ _) behind, ordered, before⟩

theorem scanLoop_safe (memory : List UInt8) (fin : Nat) (cb : σ → BcTxView → Int × σ) (tmp : Nat)
    (userPtr : σ) : SafeCalls ⟨tmp, fin⟩ (scanLoop memory fin cb tmp userPtr).1 := by
  fun_induction scanLoop memory fin cb tmp userPtr with
  | case1 => exact SafeCalls.nil _
  | case2 tmp userPtr inside tx next round progress ec after called refused =>
    obtain ⟨rfl, spans⟩ := scanRound_spans round
    exact (SafeCalls.nil _).cons spans (Nat.le_of_lt progress)
  | case3 tmp userPtr inside tx next round progress ec after called accepted calls later run
    inductionHypothesis =>
    obtain ⟨rfl, spans⟩ := scanRound_spans round
    rw [run] at inductionHypothesis
    exact inductionHypothesis.cons spans (Nat.le_of_lt progress)
  | case4 => exact SafeCalls.nil _

/-- The scan ends within as many rounds as the span has characters, and its calls are safe. -/
theorem txScan_safe (memory : List UInt8) (json : NuCspan) (cb : σ → BcTxView → Int × σ)
    (userPtr : σ) :
    jsonBlocktemplateTxScanWithin (json.fin - json.beg) memory json cb userPtr =
        some (jsonBlocktemplateTxScan memory json cb userPtr) ∧
      SafeCalls json (jsonBlocktemplateTxScan memory json cb userPtr).2.1 := by
  unfold jsonBlocktemplateTxScanWithin jsonBlocktemplateTxScan
  cases first : strstr memory json.beg tagTxns with
  | none => exact ⟨rfl, SafeCalls.nil json⟩
  | some i =>
    have behind := strstr_ge first
    have enough : json.fin - (i + (tagTxns.length + 1)) ≤ json.fin - json.beg := by omega
    have front : json.beg ≤ i + (tagTxns.length + 1) := by omega
    constructor
    · simp only [scanWithin_enough userPtr enough, Option.map_some]
    · exact (scanLoop_safe memory json.fin cb (i + (tagTxns.length + 1)) userPtr).mono front

end NuLab.Json
