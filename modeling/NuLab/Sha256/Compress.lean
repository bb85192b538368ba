import NuLab.Sha256.Code
import NuLab.Sha256.Fips180
import Mathlib.Tactic.IntervalCases

/-! # `sha256_solve_block` is the compression function of the standard

The word functions agree, the array `w` holds the message schedule after its two
loops, and the compression loop keeps the working variables of the standard.
The two conversions between words and bytes are here as well.
-/

namespace NuLab.Sha256

open NuLab.Bytes

/-! ## Words and bytes -/

theorem bytes_word (b0 b1 b2 b3 : UInt8) :
    (b0.toUInt32 <<< 24) ||| (b1.toUInt32 <<< 16) ||| (b2.toUInt32 <<< 8) ||| b3.toUInt32 =
      UInt32.ofNat (ofBE [b0, b1, b2, b3]) := by
  have bound0 := b0.toNat_lt
  have bound1 := b1.toNat_lt
  have bound2 := b2.toNat_lt
  have bound3 := b3.toNat_lt
  have low : b2.toNat <<< 8 ||| b3.toNat = b2.toNat <<< 8 + b3.toNat :=
    (Nat.shiftLeft_add_eq_or_of_lt (by omega) _).symm
  have middle : b1.toNat <<< 16 ||| (b2.toNat <<< 8 + b3.toNat) =
      b1.toNat <<< 16 + (b2.toNat <<< 8 + b3.toNat) :=
    (Nat.shiftLeft_add_eq_or_of_lt (by simp only [Nat.shiftLeft_eq]; omega) _).symm
  have high : b0.toNat <<< 24 ||| (b1.toNat <<< 16 + (b2.toNat <<< 8 + b3.toNat)) =
      b0.toNat <<< 24 + (b1.toNat <<< 16 + (b2.toNat <<< 8 + b3.toNat)) :=
    (Nat.shiftLeft_add_eq_or_of_lt (by simp only [Nat.shiftLeft_eq]; omega) _).symm
  have uncut : ∀ (b : UInt8) (n : Nat), n ≤ 24 → b.toNat <<< n % 2 ^ 32 = b.toNat <<< n := by
    intro b n small
    have bound := b.toNat_lt
    have power := Nat.pow_le_pow_right (show 2 > 0 by omega) small
    rw [Nat.shiftLeft_eq]
    apply Nat.mod_eq_of_lt
    calc b.toNat * 2 ^ n ≤ 255 * 2 ^ 24 := Nat.mul_le_mul (by omega) power
      _ < 2 ^ 32 := by norm_num
  apply UInt32.toNat_inj.mp
  simp only [UInt32.toNat_or, UInt32.toNat_shiftLeft, UInt8.toNat_toUInt32, UInt32.reduceToNat,
    Nat.reduceMod, uncut _ 24 (by omega), uncut _ 16 (by omega), uncut _ 8 (by omega), Nat.or_assoc,
    low, middle, high]
  simp only [Nat.shiftLeft_eq, ofBE, ofLE, List.reverse_cons, List.reverse_nil, List.nil_append,
    List.cons_append, UInt32.toNat_ofNat']
  omega

theorem word_byte (word shift : UInt32) (bound : shift.toNat < 32) :
    ((word >>> shift) &&& 0xFF).toUInt8 = UInt8.ofNat (word.toNat / 2 ^ shift.toNat) := by
  apply UInt8.toNat_inj.mp
  have mask : (0xFF : UInt32).toNat = 2 ^ 8 - 1 := rfl
  simp only [UInt32.toNat_toUInt8, UInt32.toNat_and, UInt32.toNat_shiftRight, mask,
    Nat.and_two_pow_sub_one_eq_mod, UInt8.toNat_ofNat', Nat.mod_eq_of_lt bound,
    Nat.shiftRight_eq_div_pow]
  omega

theorem word_bytes (word : UInt32) :
    List.map (fun j : UInt32 => ((word >>> (j * 8)) &&& 0xFF).toUInt8) [3, 2, 1, 0] =
      toBE 4 word.toNat := by
  simp only [List.map_cons, List.map_nil]
  rw [word_byte _ _ (by decide), word_byte _ _ (by decide), word_byte _ _ (by decide),
    word_byte _ _ (by decide)]
  simp only [toBE, toLE, List.reverse_cons, List.reverse_nil, List.nil_append, List.cons_append,
    Nat.div_div_eq_div_mul]
  simp

theorem resultBytes_eq (hash : Vector UInt32 8) : resultBytes hash = Fips180.writeWords hash := by
  simp only [resultBytes, Fips180.writeWords, word_bytes]

/-! ## Word functions -/

theorem rtr_eq_rotr (x : UInt32) (n : Nat) (positive : 0 < n) (bound : n < 32) :
    rtr x (UInt32.ofNat n) = Fips180.rotr n x := by
  have right : (31 &&& UInt32.ofNat n).toBitVec % 32 = BitVec.ofNat 32 n := by
    interval_cases n <;> rfl
  have left : (31 &&& (32 - UInt32.ofNat n)).toBitVec % 32 = BitVec.ofNat 32 (32 - n) := by
    interval_cases n <;> rfl
  have shiftRight : x.toBitVec >>> BitVec.ofNat 32 n = x.toBitVec >>> n := by
    rw [BitVec.ushiftRight_eq', BitVec.toNat_ofNat, Nat.mod_eq_of_lt (by omega)]
  have shiftLeft : x.toBitVec <<< BitVec.ofNat 32 (32 - n) = x.toBitVec <<< (32 - n) := by
    rw [BitVec.shiftLeft_eq', BitVec.toNat_ofNat, Nat.mod_eq_of_lt (by omega)]
  apply UInt32.toBitVec_inj.mp
  simp only [rtr, shr, shl, Fips180.rotr, UInt32.toBitVec_or, UInt32.toBitVec_shiftLeft,
    UInt32.toBitVec_shiftRight, BitVec.rotateRight_def, right, left, shiftRight, shiftLeft,
    Nat.mod_eq_of_lt bound]

theorem bsig0_eq (x : UInt32) : bsig0 x = Fips180.bigSigma0 x := by
  simp only [Fips180.bigSigma0, ← rtr_eq_rotr x 2 (by omega) (by omega),
    ← rtr_eq_rotr x 13 (by omega) (by omega), ← rtr_eq_rotr x 22 (by omega) (by omega)]
  rfl

theorem bsig1_eq (x : UInt32) : bsig1 x = Fips180.bigSigma1 x := by
  simp only [Fips180.bigSigma1, ← rtr_eq_rotr x 6 (by omega) (by omega),
    ← rtr_eq_rotr x 11 (by omega) (by omega), ← rtr_eq_rotr x 25 (by omega) (by omega)]
  rfl

theorem ssig0_eq (x : UInt32) : ssig0 x = Fips180.smallSigma0 x := by
  simp only [Fips180.smallSigma0, ← rtr_eq_rotr x 7 (by omega) (by omega),
    ← rtr_eq_rotr x 18 (by omega) (by omega)]
  rfl

theorem ssig1_eq (x : UInt32) : ssig1 x = Fips180.smallSigma1 x := by
  simp only [Fips180.smallSigma1, ← rtr_eq_rotr x 17 (by omega) (by omega),
    ← rtr_eq_rotr x 19 (by omega) (by omega)]
  rfl

theorem sha256K_eq (t : Nat) : sha256K[t]! = Fips180.roundConstants[t]! := by
  have same : sha256K.toList = Fips180.roundConstants := rfl
  rw [← same]
  by_cases inside : t < 64
  · rw [getElem!_pos sha256K t inside, getElem!_pos sha256K.toList t (by simpa using inside),
      Vector.getElem_toList]
  · rw [getElem!_neg sha256K t inside, getElem!_neg sha256K.toList t (by simpa using inside)]

theorem sha256H0_eq : sha256H0 = Fips180.initialHash := rfl

/-! ## Message schedule -/

theorem vector_set!_get! {n : Nat} (w : Vector UInt32 n) (i j : Nat) (word : UInt32)
    (bound : j < n) : (w.set! i word)[j]! = if i = j then word else w[j]! := by
  rw [getElem!_pos (w.set! i word) j bound, getElem!_pos w j bound, Vector.getElem_set!]

theorem blockWords_get (block : Vector UInt8 64) (t : Nat) (bound : t < 16) :
    (Fips180.blockWords block.toList)[t]! = UInt32.ofNat
      (ofBE [block[4 * t]!, block[4 * t + 1]!, block[4 * t + 2]!, block[4 * t + 3]!]) := by
  have bytes : (block.toList.drop (4 * t)).take 4 =
      [block[4 * t]!, block[4 * t + 1]!, block[4 * t + 2]!, block[4 * t + 3]!] := by
    apply List.ext_getElem
    · simp only [List.length_take, List.length_drop, Vector.length_toList,
        List.length_cons, List.length_nil]
      omega
    · intro k _ small
      simp only [List.length_cons, List.length_nil] at small
      simp only [List.getElem_take, List.getElem_drop, Vector.getElem_toList]
      interval_cases k <;> simp only [List.getElem_cons_zero, List.getElem_cons_succ] <;>
        rw [getElem!_pos] <;> rfl
  rw [getElem!_pos _ _ (by simpa [Fips180.blockWords] using bound)]
  simp only [Fips180.blockWords, List.getElem_map, List.getElem_range, bytes]

/-- First loop: `w[0 .. n)` are the words of the block. -/
theorem loadWord_loop (block : Vector UInt8 64) (w : Vector UInt32 64) (n : Nat) (bound : n ≤ 16) :
    ∀ t < n, ((List.range n).foldl (loadWord block) w)[t]! =
      (Fips180.blockWords block.toList)[t]! := by
  induction n with
  | zero => intro t impossible; omega
  | succ n inductionHypothesis =>
    intro t small
    rw [List.range_succ, List.foldl_append, List.foldl_cons, List.foldl_nil, loadWord,
      vector_set!_get! _ _ _ _ (by omega)]
    split
    next same =>
      subst same
      rw [blockWords_get block n (by omega), ← bytes_word, Nat.add_zero]
    next different => exact inductionHypothesis (by omega) t (by omega)

theorem extendSchedule_length (words : List UInt32) :
    (Fips180.extendSchedule words).length = words.length + 1 := by
  simp [Fips180.extendSchedule]

theorem extendSchedule_get (words : List UInt32) (t : Nat) (bound : t < words.length) :
    (Fips180.extendSchedule words)[t]! = words[t]! := by
  rw [getElem!_pos _ _ (by rw [extendSchedule_length]; omega), getElem!_pos words _ bound]
  simp only [Fips180.extendSchedule, List.getElem_append_left bound]

theorem extendSchedule_get_last (words : List UInt32) (t : Nat) (last : words.length = t) :
    (Fips180.extendSchedule words)[t]! = Fips180.smallSigma1 words[t - 2]! + words[t - 7]! +
      Fips180.smallSigma0 words[t - 15]! + words[t - 16]! := by
  rw [getElem!_pos _ _ (by rw [extendSchedule_length]; omega)]
  subst last
  simp only [Fips180.extendSchedule, List.getElem_append_right (Nat.le_refl _), Nat.sub_self,
    List.getElem_cons_zero]

/-- Second loop: after `n` rounds `w[0 .. 16 + n)` is the schedule extended `n` times. -/
theorem expandWord_loop (words : List UInt32) (length : words.length = 16) (w : Vector UInt32 64)
    (first : ∀ t < 16, w[t]! = words[t]!) (n : Nat) (bound : n ≤ 48) :
    (Fips180.extendSchedule^[n] words).length = 16 + n ∧
      ∀ t < 16 + n, ((List.range' 16 n).foldl expandWord w)[t]! =
        (Fips180.extendSchedule^[n] words)[t]! := by
  induction n with
  | zero => exact ⟨length, first⟩
  | succ n inductionHypothesis =>
    obtain ⟨extended, agree⟩ := inductionHypothesis (by omega)
    rw [Function.iterate_succ_apply', List.range'_1_concat, List.foldl_append,
      List.foldl_cons, List.foldl_nil]
    refine ⟨by rw [extendSchedule_length, extended]; rfl, fun t small => ?_⟩
    rw [expandWord, vector_set!_get! _ _ _ _ (by omega)]
    split
    next same =>
      subst same
      rw [extendSchedule_get_last _ _ extended, ssig0_eq, ssig1_eq, agree _ (by omega),
        agree _ (by omega), agree _ (by omega), agree _ (by omega)]
    next different =>
      rw [extendSchedule_get _ _ (by omega)]
      exact agree t (by omega)

/-! ## Rounds -/

def WorkVars.toWorking (v : WorkVars) : Fips180.Working := ⟨v.a, v.b, v.c, v.d, v.e, v.f, v.g, v.h⟩

theorem workRound_eq (w : Vector UInt32 64) (words : List UInt32) (t : Nat)
    (agree : w[t]! = words[t]!) (v : WorkVars) :
    (workRound w v t).toWorking = Fips180.round Fips180.roundConstants[t]!
      words[t]! v.toWorking := by
  simp only [workRound, WorkVars.toWorking, Fips180.round, bsig0_eq, bsig1_eq, sha256K_eq, agree,
    shaCh, shaMaj, Fips180.ch, Fips180.maj]

theorem workRound_loop (w : Vector UInt32 64) (words : List UInt32) (steps : List Nat)
    (agree : ∀ t ∈ steps, w[t]! = words[t]!) (v : WorkVars) :
    (steps.foldl (workRound w) v).toWorking =
      steps.foldl (fun v t => Fips180.round Fips180.roundConstants[t]! words[t]! v)
        v.toWorking := by
  induction steps generalizing v with
  | nil => rfl
  | cons t steps inductionHypothesis =>
    rw [List.foldl_cons, List.foldl_cons, ← workRound_eq w words t (agree t (by simp)) v]
    exact inductionHypothesis (fun t member => agree t (List.mem_cons_of_mem _ member)) _

/-- The array `w` of `sha256_solve_block` when its second loop ends. -/
theorem solveBlock_schedule (block : Vector UInt8 64) (t : Nat) (bound : t < 64) :
    ((List.range' 16 48).foldl expandWord
      ((List.range 16).foldl (loadWord block) (Vector.replicate 64 0)))[t]! =
      (Fips180.schedule block.toList)[t]! := by
  have loaded := loadWord_loop block (Vector.replicate 64 0) 16 (by omega)
  rw [Fips180.schedule]
  exact (expandWord_loop _ (by simp [Fips180.blockWords]) _ loaded 48 (by omega)).2 t bound

theorem addWork_eq (a b c d e f g h : UInt32) (v : WorkVars) :
    #v[a + v.a, b + v.b, c + v.c, d + v.d, e + v.e, f + v.f, g + v.g, h + v.h] =
    #v[v.toWorking.a + a, v.toWorking.b + b, v.toWorking.c + c, v.toWorking.d + d,
      v.toWorking.e + e, v.toWorking.f + f, v.toWorking.g + g, v.toWorking.h + h] := by
  simp only [WorkVars.toWorking, UInt32.add_comm]

theorem sha256SolveBlock_eq (block : Vector UInt8 64) (hash : Vector UInt32 8) :
    sha256SolveBlock block hash = Fips180.compress hash block.toList := by
  have rounds := fun v => workRound_loop _ _ (List.range 64)
    (fun t member => solveBlock_schedule block t (List.mem_range.mp member)) v
  simp only [sha256SolveBlock, Fips180.compress]
  rw [addWork_eq, rounds]
  rfl

end NuLab.Sha256
