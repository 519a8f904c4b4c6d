import Manhattan.Vm.Comparison
import Manhattan.Vm.Exponent
import Manhattan.Vm.Postfix

/-! # DIV, SDIV, MOD and SMOD

All four divide the deeper operand by the top with the signed division of `int64_t`. The
correction in SDIV gives the same quotient again; the one in SMOD gives the same remainder
but for INT64_MIN, whose negation it takes.
-/

namespace Manhattan.Vm

open Library.ExecRules Library.WordReadings

/-! ## What is pushed -/

/-- The divisions that `idiv` can do. -/
def Divides (a b : Word) : Prop := b ≠ 0 ∧ ¬(a = INT64_MIN ∧ b = -1)

theorem Divides.not_trap {a b : Word} (h : Divides a b) :
    ¬(b = 0 ∨ (a = INT64_MIN ∧ b = -1)) := by
  rintro (hZero | hTrap)
  · exact h.1 hZero
  · exact h.2 hTrap

theorem Divides.cDiv {a b : Word} (h : Divides a b) : cDiv a b = pure (a.sdiv b) :=
  if_neg h.not_trap

theorem Divides.cRem {a b : Word} (h : Divides a b) : cRem a b = pure (a.srem b) :=
  if_neg h.not_trap

theorem divides_of_ne {b : Word} (a : Word) (hZero : b ≠ 0) (hOne : b ≠ -1) : Divides a b :=
  ⟨hZero, fun h => hOne h.2⟩

theorem exitIf_of_not {c : Prop} [Decidable c] (h : ¬c) (message : String) :
    exitIf c message = pure () := if_neg h

theorem replaces_div {a b : Word} (h : Divides a b) : Replaces [0x04] [a, b] [a.sdiv b] := by
  refine replaces_opcode (fun _ _ => rfl) (rewrites_arithmeticCase fun m => ?_)
  rw [exitIf_of_not h.1, pure_bind, h.cDiv]
  rfl

theorem replaces_mod {a b : Word} (h : Divides a b) : Replaces [0x06] [a, b] [a.srem b] := by
  refine replaces_opcode (fun _ _ => rfl) (rewrites_arithmeticCase fun m => ?_)
  rw [exitIf_of_not h.1, pure_bind, h.cRem]
  rfl

/-- The signs differ and the division is not exact. -/
def Corrected (a b : Word) : Prop := (a ^^^ b).toInt < 0 ∧ a.srem b ≠ 0

instance (a b : Word) : Decidable (Corrected a b) := inferInstanceAs (Decidable (_ ∧ _))

theorem Corrected.ne_neg_one {a b : Word} (h : Corrected a b) : b ≠ -1 := by
  rintro rfl
  refine h.2 (BitVec.eq_of_toInt_eq ?_)
  rw [BitVec.toInt_srem, show (-1 : Word).toInt = -1 by decide, Int.tmod_neg, Int.tmod_one]
  rfl

/-- The shape that SDIV and SMOD share after their divisions. -/
theorem branch_eq {a b r c : Word} {correction : VM Word}
    (hCorrection : Corrected a b → correction = pure c) :
    (if (a ^^^ b).toInt < 0 then if a.srem b ≠ 0 then correction else pure r else pure r) =
      (pure (if Corrected a b then c else r) : VM Word) := by
  by_cases hBranch : Corrected a b
  · rw [if_pos hBranch, if_pos hBranch.1, if_pos hBranch.2, hCorrection hBranch]
  · rw [if_neg hBranch]
    split
    · rename_i hSigns
      exact if_neg fun hRemainder => hBranch ⟨hSigns, hRemainder⟩
    · rfl

theorem replaces_sdiv_branch {a b : Word} (h : Divides a b) :
    Replaces [0x05] [a, b]
      [if Corrected a b then -((-(a - a.srem b)).sdiv b) else a.sdiv b] := by
  refine replaces_opcode (fun _ _ => rfl) (rewrites_arithmeticCase fun m => ?_)
  simp only [exitIf_of_not h.1, h.cDiv, h.cRem, pure_bind]
  rw [branch_eq fun hBranch => ?_]
  · rfl
  · rw [(divides_of_ne _ h.1 hBranch.ne_neg_one).cDiv, pure_bind]

theorem replaces_smod_branch {a b : Word} (h : Divides a b) :
    Replaces [0x07] [a, b] [if Corrected a b then (-a).sdiv b * b + a else a.srem b] := by
  refine replaces_opcode (fun _ _ => rfl) (rewrites_arithmeticCase fun m => ?_)
  simp only [exitIf_of_not h.1, h.cRem, pure_bind]
  rw [branch_eq fun hBranch => ?_]
  · rfl
  · rw [(divides_of_ne _ h.1 hBranch.ne_neg_one).cDiv, pure_bind]

/-! ## The correction in SDIV -/

/-- Each word of `-((-(a - a % b)) / b)` is the integer that the same operation gives: none
of them leaves the range of a signed 64-bit word. -/
structure CorrectionExact (a b : Word) : Prop where
  remainder : (a.srem b).toInt = a.toInt.tmod b.toInt
  difference : (a - a.srem b).toInt = a.toInt - (a.srem b).toInt
  negation : (-(a - a.srem b)).toInt = -(a - a.srem b).toInt
  quotient : ((-(a - a.srem b)).sdiv b).toInt = (-(a - a.srem b)).toInt.tdiv b.toInt
  result : (-(-(a - a.srem b)).sdiv b).toInt = -((-(a - a.srem b)).sdiv b).toInt

theorem toInt_neg_of_fits {x : Word} (h : Fits (-x.toInt)) : (-x).toInt = -x.toInt :=
  BitVec.toInt_neg.trans (wrap_of_fits h)

theorem fits_toInt (x : Word) : Fits x.toInt := ⟨x.le_toInt, x.toInt_lt⟩

theorem Corrected.exact {a b : Word} (h : Corrected a b) : CorrectionExact a b := by
  have hRem : (a.srem b).toInt = a.toInt.tmod b.toInt := BitVec.toInt_srem a b
  have hNonzero : a.toInt.tmod b.toInt ≠ 0 := by
    rw [← hRem]
    exact mt (toInt_eq_zero_iff _).mp h.2
  obtain ⟨hPos, hNeg⟩ := tmod_between a.toInt b.toInt
  obtain ⟨hLower, hUpper⟩ := fits_toInt a
  have hDifference : (a - a.srem b).toInt = a.toInt - (a.srem b).toInt := by
    rw [BitVec.toInt_sub]
    refine wrap_of_fits ?_
    rw [hRem]
    constructor <;> omega
  have hNegation : (-(a - a.srem b)).toInt = -(a - a.srem b).toInt := by
    refine toInt_neg_of_fits ?_
    rw [hDifference, hRem]
    constructor <;> omega
  have hQuotient : ((-(a - a.srem b)).sdiv b).toInt = (-(a - a.srem b)).toInt.tdiv b.toInt :=
    BitVec.toInt_sdiv_of_ne_or_ne _ _ (.inr h.ne_neg_one)
  refine ⟨hRem, hDifference, hNegation, hQuotient, toInt_neg_of_fits ?_⟩
  have hSmaller := Int.natAbs_tdiv_le_natAbs (-(a - a.srem b)).toInt b.toInt
  rw [← hQuotient, hNegation, hDifference, hRem] at hSmaller
  constructor <;> omega

theorem Corrected.sdiv_eq {a b : Word} (hZero : b ≠ 0) (h : Corrected a b) :
    -(-(a - a.srem b)).sdiv b = a.sdiv b := by
  have hExact := h.exact
  have hMultiple : a.toInt - a.toInt.tmod b.toInt = b.toInt * a.toInt.tdiv b.toInt :=
    sub_eq_of_eq_add (Int.mul_tdiv_add_tmod a.toInt b.toInt).symm
  refine BitVec.eq_of_toInt_eq ?_
  rw [BitVec.toInt_sdiv_of_ne_or_ne _ _ (.inr h.ne_neg_one)]
  calc
    (-(-(a - a.srem b)).sdiv b).toInt = -(-(a.toInt - a.toInt.tmod b.toInt)).tdiv b.toInt := by
      rw [hExact.result, hExact.quotient, hExact.negation, hExact.difference, hExact.remainder]
    _ = (b.toInt * a.toInt.tdiv b.toInt).tdiv b.toInt := by
      rw [Int.neg_tdiv, neg_neg, hMultiple]
    _ = a.toInt.tdiv b.toInt := Int.mul_tdiv_cancel_left _ (mt (toInt_eq_zero_iff b).mp hZero)

theorem replaces_sdiv {a b : Word} (h : Divides a b) : Replaces [0x05] [a, b] [a.sdiv b] := by
  have hBranch := replaces_sdiv_branch h
  split at hBranch
  · rename_i hCorrected
    rwa [hCorrected.sdiv_eq h.1] at hBranch
  · exact hBranch

/-- SDIV pushes the quotient truncated toward zero, as DIV does, and its correction stays in
range. -/
theorem sdiv_exact (a b : Word) (hZero : b ≠ 0) (hOne : b ≠ -1) :
    Replaces [0x05] [a, b] [BitVec.ofInt 64 (a.toInt.tdiv b.toInt)] ∧
      Fits (a.toInt.tdiv b.toInt) ∧ Agree [0x05] [a, b] [0x04] [a, b] ∧
      (Corrected a b → CorrectionExact a b) := by
  have hDivides := divides_of_ne a hZero hOne
  have hQuotient : (a.sdiv b).toInt = a.toInt.tdiv b.toInt :=
    BitVec.toInt_sdiv_of_ne_or_ne _ _ (.inr hOne)
  rw [← hQuotient, BitVec.ofInt_toInt]
  exact ⟨replaces_sdiv hDivides, fits_toInt _, ⟨_, replaces_sdiv hDivides, replaces_div hDivides⟩,
    Corrected.exact⟩

theorem sdiv_exact_seven :
    Replaces [0x05] [-7, 2] [BitVec.ofInt 64 (-3)] ∧ CorrectionExact (-7) 2 := by
  obtain ⟨hPushed, _, _, hExact⟩ := sdiv_exact (-7) 2 (by decide) (by decide)
  exact ⟨hPushed, hExact (by decide)⟩

/-! ## The correction in SMOD -/

/-- The only operands for which SMOD does not push the remainder. -/
def Negated (a b : Word) : Prop := a = INT64_MIN ∧ 0 < b.toInt ∧ ¬b.toInt ∣ a.toInt

instance (a b : Word) : Decidable (Negated a b) := inferInstanceAs (Decidable (_ ∧ _ ∧ _))

theorem srem_eq_zero_iff (a b : Word) : a.srem b = 0 ↔ b.toInt ∣ a.toInt := by
  rw [← toInt_eq_zero_iff, BitVec.toInt_srem, Int.dvd_iff_tmod_eq_zero]

theorem negated_iff {a b : Word} (hZero : b ≠ 0) :
    Negated a b ↔ Corrected a b ∧ a = INT64_MIN := by
  have hSigns : (INT64_MIN ^^^ b).toInt < 0 ↔ 0 < b.toInt := by
    have hNonzero := mt (toInt_eq_zero_iff b).mp hZero
    have hMsb : (INT64_MIN ^^^ b).msb = !b.msb := by
      rw [BitVec.msb_xor, show INT64_MIN.msb = true by decide, Bool.true_xor]
    rw [BitVec.msb_eq_toInt, BitVec.msb_eq_toInt, ← decide_not, decide_eq_decide] at hMsb
    omega
  constructor
  · rintro ⟨rfl, hPos, hDvd⟩
    exact ⟨⟨hSigns.mpr hPos, mt (srem_eq_zero_iff _ _).mp hDvd⟩, rfl⟩
  · rintro ⟨⟨hNeg, hRemainder⟩, rfl⟩
    exact ⟨rfl, hSigns.mp hNeg, mt (srem_eq_zero_iff _ _).mpr hRemainder⟩

theorem neg_sdiv {a b : Word} (ha : a ≠ INT64_MIN) (hOne : b ≠ -1) :
    (-a).sdiv b = -a.sdiv b := by
  have hNeg : ((-a).sdiv b).toInt = -(a.sdiv b).toInt := by
    rw [BitVec.toInt_sdiv_of_ne_or_ne _ _ (.inr hOne), BitVec.toInt_neg_of_ne_intMin ha,
      Int.neg_tdiv, BitVec.toInt_sdiv_of_ne_or_ne _ _ (.inr hOne)]
  have hFits := fits_toInt ((-a).sdiv b)
  rw [hNeg] at hFits
  exact BitVec.eq_of_toInt_eq (hNeg.trans (toInt_neg_of_fits hFits).symm)

theorem replaces_smod {a b : Word} (h : Divides a b) :
    Replaces [0x07] [a, b] [if Negated a b then -a.srem b else a.srem b] := by
  have hBranch := replaces_smod_branch h
  simp only [negated_iff h.1]
  split at hBranch
  · rename_i hCorrected
    have hSplit : a.sdiv b * b + a.srem b = a := sdiv_mul_add_srem (.inr hCorrected.ne_neg_one)
    by_cases ha : a = INT64_MIN
    · rw [if_pos ⟨hCorrected, ha⟩]
      -- -a overflows to a, and q * b + a is a + a - r
      have hDouble : a + a = 0 := by
        rw [ha]
        decide
      have hValue : (-a).sdiv b * b + a = -a.srem b := by
        rw [neg_eq_of_add_eq_zero_right hDouble]
        linear_combination hSplit + hDouble
      rwa [hValue] at hBranch
    · rw [if_neg fun hNegated => ha hNegated.2]
      have hValue : (-a).sdiv b * b + a = a.srem b := by
        rw [neg_sdiv ha hCorrected.ne_neg_one]
        linear_combination -hSplit
      rwa [hValue] at hBranch
  · rename_i hPlain
    rwa [if_neg fun hNegated => hPlain hNegated.1]

/-- What SMOD pushes is the truncated remainder, and goes with the quotient of SDIV. -/
structure SignedRemainder (a b r q : Word) : Prop where
  smod : Replaces [0x07] [a, b] [r]
  sdiv : Replaces [0x05] [a, b] [q]
  value : r.toInt = a.toInt - b.toInt * a.toInt.tdiv b.toInt
  small : r.toInt.natAbs < b.toInt.natAbs
  sign : r.toInt = 0 ∨ r.toInt.sign = a.toInt.sign
  split : q.toInt * b.toInt + r.toInt = a.toInt

theorem signedRemainder_srem {a b : Word} (h : Divides a b) (hPlain : ¬Negated a b) :
    SignedRemainder a b (a.srem b) (a.sdiv b) := by
  have hSmod := replaces_smod h
  rw [if_neg hPlain] at hSmod
  have hRem : (a.srem b).toInt = a.toInt.tmod b.toInt := BitVec.toInt_srem a b
  have hDiv : (a.sdiv b).toInt = a.toInt.tdiv b.toInt :=
    BitVec.toInt_sdiv_of_ne_or_ne _ _ (not_and_or.mp h.2)
  have hSplit := Int.mul_tdiv_add_tmod a.toInt b.toInt
  obtain ⟨hPos, hNeg⟩ := tmod_between a.toInt b.toInt
  refine ⟨hSmod, replaces_sdiv h, ?_, ?_, ?_, ?_⟩
  · rw [hRem]
    linarith
  · rw [hRem]
    exact natAbs_tmod_lt _ (mt (toInt_eq_zero_iff b).mp h.1)
  · rw [hRem, or_iff_not_imp_left]
    intro hNonzero
    obtain hBelow | hAbove := lt_or_gt_of_ne hNonzero
    · rw [Int.sign_eq_neg_one_of_neg hBelow, Int.sign_eq_neg_one_of_neg (by omega)]
    · rw [Int.sign_eq_one_of_pos hAbove, Int.sign_eq_one_of_pos (by omega)]
  · rw [hRem, hDiv]
    linarith

/-- SMOD pushes the signed remainder if and only if the dividend is not INT64_MIN with a
positive divisor that does not divide it. -/
theorem smod_remainder_iff (a b : Word) (hZero : b ≠ 0) (hOne : b ≠ -1) :
    (∃ r q, SignedRemainder a b r q) ↔
      ¬(a = INT64_MIN ∧ 0 < b.toInt ∧ ¬b.toInt ∣ a.toInt) := by
  have hDivides := divides_of_ne a hZero hOne
  constructor
  · rintro ⟨r, q, hRemainder⟩ hNegated
    have hSmod := replaces_smod hDivides
    rw [if_pos (show Negated a b from hNegated)] at hSmod
    obtain rfl : r = -a.srem b := List.head_eq_of_cons_eq (hSmod.iff_eq.mp hRemainder.smod)
    have hRem : (a.srem b).toInt = a.toInt.tmod b.toInt := BitVec.toInt_srem a b
    have hSplit := Int.mul_tdiv_add_tmod a.toInt b.toInt
    have hSmall := natAbs_tmod_lt a.toInt (mt (toInt_eq_zero_iff b).mp hZero)
    have hUpper := b.toInt_lt
    have hNeg : (-a.srem b).toInt = -a.toInt.tmod b.toInt := by
      rw [← hRem]
      refine toInt_neg_of_fits ?_
      rw [hRem]
      constructor <;> omega
    have hValue := hRemainder.value
    refine hNegated.2.2 (Int.dvd_iff_tmod_eq_zero.mpr ?_)
    linarith
  · exact fun hPlain => ⟨_, _, signedRemainder_srem hDivides hPlain⟩

/-- PUSH1 1, PUSH1 63, SHL, PUSH1 3, SMOD: -2^63 modulo 3 is 2, and not -2. -/
theorem smod_not_remainder :
    let code : Bytecode := ⟨[0x60, 1, 0x60, 63, 0x1b, 0x60, 3, 0x07], fun _ => 0⟩
    let s := stackCreate 4 (fun _ => 0) zeroMemory
    (final (executeFor code 4 0 s.machine)).stack.items = [INT64_MIN, 3] ∧
      outcome (executeFor code 5 0 s.machine) = .ok (.inl 8) ∧
      (final (executeFor code 5 0 s.machine)).stack.items = [2] ∧
      INT64_MIN.toInt.tmod 3 = -2 := by
  decide +kernel

theorem smod_remainder_iff_seven : ∃ r q, SignedRemainder (-7) 2 r q :=
  (smod_remainder_iff (-7) 2 (by decide) (by decide)).mpr (by decide)

end Manhattan.Vm
