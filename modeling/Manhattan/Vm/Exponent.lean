import Manhattan.Library.SquareMultiply
import Manhattan.Library.WordReadings
import Manhattan.Vm.CaseRules

/-! # EXP

The loop of EXP guesses after the fact whether a product or a square has overflowed: a product
below the square it was multiplied with, and a square below 1, end the program. The guess can
fail in both directions.
-/

namespace Manhattan.Vm

open Library.ExecRules Library.SquareMultiply Library.WordReadings

def wrap (x : Int) : Int := x.bmod (2 ^ 64)

def Fits (x : Int) : Prop := -2 ^ 63 ≤ x ∧ x < 2 ^ 63

instance (x : Int) : Decidable (Fits x) := inferInstanceAs (Decidable (_ ∧ _))

/-- `a` to the power of `e` ends in the overflow error: at some bit of `e` the product wraps to
less than the square it was multiplied with, or the next square wraps to less than 1. -/
def Guessed (a : Int) (e : Nat) : Prop :=
  ∃ k < e.size, (e.testBit k ∧ wrap (a ^ (e % 2 ^ (k + 1))) < wrap (a ^ 2 ^ k)) ∨
    wrap (a ^ 2 ^ (k + 1)) < 1

instance (a : Int) (e : Nat) : Decidable (Guessed a e) :=
  inferInstanceAs (Decidable (∃ k < e.size, _ ∨ _))

/-! ## The loop -/

def ProductFails (result a : Word) : Prop := result.toInt < a.toInt

def SquareFails (a : Word) : Prop := a.toInt < 1

instance : DecidableRel ProductFails := fun result a =>
  inferInstanceAs (Decidable (result.toInt < a.toInt))

instance : DecidablePred SquareFails := fun a => inferInstanceAs (Decidable (a.toInt < 1))

theorem toNat_half {x : Word} (h : 0 ≤ x.toInt) : (x.sshiftRight 1).toNat = x.toNat / 2 := by
  have hMsb : x.msb = false := by
    rw [BitVec.msb_eq_toInt]
    exact decide_eq_false (not_lt.mpr h)
  rw [BitVec.sshiftRight_eq_of_msb_false hMsb, BitVec.toNat_ushiftRight, Nat.shiftRight_eq_div_pow]

theorem and_one_ne_zero (x : Word) : x &&& 1 ≠ 0 ↔ x.toNat % 2 = 1 := by
  have hAnd : (x &&& 1).toNat = x.toNat % 2 := toNat_and_low x (show 1 ≤ 64 by decide)
  rw [ne_eq, ← BitVec.toNat_inj, hAnd]
  simp

def overflowText : String := "Error: Integer overflow in exponential operation\n"

theorem expLoop_pos {exponent : Word} (hPos : 0 < exponent.toInt) (a r : Word) (m : Machine) :
    expLoop exponent a r m =
      let next := if exponent.toNat % 2 = 1 then r * a else r
      if exponent.toNat % 2 = 1 ∧ ProductFails next a then .error (.exit overflowText) m
      else if SquareFails (a * a) then .error (.exit overflowText) m
      else expLoop (exponent.sshiftRight 1) (a * a) next m := by
  rw [expLoop, dif_pos hPos]
  change (exitIf _ _ >>= fun _ => exitIf _ _ >>= fun _ => expLoop _ _ _) m = _
  rw [exitIf_bind, exitIf_bind]
  simp only [and_one_ne_zero]
  rfl

/-- The loop is square and multiply with the two guesses for checks. -/
theorem expLoop_eq {exponent : Word} (h : 0 ≤ exponent.toInt) (a r : Word) (m : Machine) :
    expLoop exponent a r m = match power ProductFails SquareFails exponent.toNat a r with
      | some result => .ok result m
      | none => .error (.exit overflowText) m := by
  induction hSize : exponent.toNat using Nat.strongRecOn generalizing exponent a r with
  | ind e ih =>
    subst hSize
    have hNat := toInt_eq_toNat h
    rcases eq_or_ne exponent.toNat 0 with hZero | hNonzero
    · rw [expLoop, dif_neg (by omega), power, if_pos hZero]
      rfl
    · have hHalf := toNat_half h
      have hNext : 0 ≤ (exponent.sshiftRight 1).toInt := by
        have hLt := exponent.isLt
        rw [BitVec.toInt_eq_toNat_cond, hHalf, if_pos (by omega)]
        exact Int.natCast_nonneg _
      have hSmaller : exponent.toNat / 2 < exponent.toNat := by omega
      rw [expLoop_pos (by omega), power, if_neg hNonzero]
      dsimp only
      generalize (if exponent.toNat % 2 = 1 then r * a else r) = next
      rw [ih _ hSmaller hNext (a * a) next hHalf]
      by_cases hProduct : exponent.toNat % 2 = 1 ∧ ProductFails next a
      · rw [if_pos hProduct, if_pos hProduct]
      by_cases hSquare : SquareFails (a * a)
      · rw [if_neg hProduct, if_neg hProduct, if_pos hSquare, if_pos hSquare]
      · rw [if_neg hProduct, if_neg hProduct, if_neg hSquare, if_neg hSquare]

theorem toInt_pow (a : Word) (n : Nat) : (a ^ n).toInt = wrap (a.toInt ^ n) := by
  have hOfInt : BitVec.ofInt 64 (a.toInt ^ n) = a ^ n := by
    induction n with
    | zero => rw [pow_zero, pow_zero]; rfl
    | succ n ih => rw [pow_succ, pow_succ, BitVec.ofInt_mul, ih, BitVec.ofInt_toInt]
  rw [← hOfInt, BitVec.toInt_ofInt]
  rfl

theorem guessed_iff (a : Word) (e : Nat) :
    (∃ k < e.size, FailsAt ProductFails SquareFails e a 1 k) ↔ Guessed a.toInt e := by
  simp [FailsAt, ProductFails, SquareFails, Guessed, toInt_pow]

/-! ## When the guess is right -/

theorem wrap_of_fits {x : Int} (h : Fits x) : wrap x = x := by
  obtain ⟨hLower, hUpper⟩ := h
  apply Int.bmod_eq_of_le <;> norm_num <;> omega

theorem size_eq_succ {e : Nat} (he : e ≠ 0) : ∃ n, e.size = n + 1 :=
  Nat.exists_eq_succ_of_ne_zero (mt Nat.size_eq_zero.mp he)

/-- A positive power that fits has no product or square that wraps, but for the square after the
last bit. -/
theorem guessed_of_pos {a : Int} {e : Nat} (ha : 0 < a) (he : e ≠ 0) (hFits : Fits (a ^ e)) :
    Guessed a e ↔ wrap (a ^ 2 ^ e.size) < 1 := by
  have hSmall : ∀ n ≤ e, wrap (a ^ n) = a ^ n := by
    intro n hn
    have hLe : a ^ n ≤ a ^ e := pow_le_pow_right₀ ha hn
    have hPos : 0 < a ^ n := pow_pos ha n
    exact wrap_of_fits ⟨by omega, hLe.trans_lt hFits.2⟩
  constructor
  · rintro ⟨k, hk, ⟨hBit, hLess⟩ | hSquare⟩
    · have hBelow : 2 ^ k ≤ e % 2 ^ (k + 1) :=
        Nat.ge_two_pow_of_testBit (by simpa using hBit)
      have hMod : e % 2 ^ (k + 1) ≤ e := Nat.mod_le e _
      rw [hSmall _ hMod, hSmall _ (hBelow.trans hMod)] at hLess
      exact absurd (pow_le_pow_right₀ ha hBelow) (not_le.mpr hLess)
    · rcases eq_or_ne (k + 1) e.size with hLast | hEarlier
      · rwa [hLast] at hSquare
      · have hLe : 2 ^ (k + 1) ≤ e := Nat.lt_size.mp (by omega)
        rw [hSmall _ hLe] at hSquare
        exact absurd hSquare (not_lt.mpr (pow_pos ha _))
  · intro hLast
    obtain ⟨n, hSize⟩ := size_eq_succ he
    rw [hSize] at hLast
    exact ⟨n, by omega, .inr hLast⟩

theorem guessed_neg {e : Nat} (he : Even e) (a : Int) : Guessed (-a) e ↔ Guessed a e := by
  have hPow : ∀ n, Even n → (-a) ^ n = a ^ n := fun n hn => hn.neg_pow a
  have hTwo : ∀ k, Even (2 ^ (k + 1)) := fun k => (even_two).pow_of_ne_zero (Nat.succ_ne_zero k)
  refine exists_congr fun k => and_congr_right fun _ => ?_
  rw [hPow _ (hTwo k)]
  cases k with
  | zero => simp [Nat.even_iff.mp he]
  | succ k =>
    have hMod : Even (e % 2 ^ (k + 1 + 1)) := by
      rw [Nat.even_iff, Nat.mod_mod_of_dvd e (dvd_pow_self 2 (Nat.succ_ne_zero _))]
      exact Nat.even_iff.mp he
    rw [hPow _ (hTwo k), hPow _ hMod]

theorem testBit_last {e n : Nat} (h : e.size = n + 1) : e.testBit n ∧ e % 2 ^ (n + 1) = e := by
  have hLower : 2 ^ n ≤ e := Nat.lt_size.mp (by omega)
  have hUpper : e < 2 ^ (n + 1) := Nat.size_le.mp h.le
  exact ⟨Nat.testBit_of_two_pow_le_and_two_pow_add_one_gt hLower hUpper, Nat.mod_eq_of_lt hUpper⟩

/-- The negative product of the last bit meets a square that is positive, or has wrapped. -/
theorem guessed_of_odd {a : Int} {e : Nat} (ha : a < 0) (he : Odd e) (hOne : e ≠ 1)
    (hFits : Fits (a ^ e)) : Guessed a e := by
  have hLarge : 2 ^ 1 ≤ e := by
    have hPos := he.pos
    omega
  obtain ⟨n, hSize⟩ : ∃ n, e.size = n + 1 + 1 := by
    have hTwo : 1 < e.size := Nat.lt_size.mpr hLarge
    exact ⟨e.size - 2, by omega⟩
  rcases lt_or_ge (wrap (a ^ 2 ^ (n + 1))) 1 with hSquare | hPositive
  · exact ⟨n, by omega, .inr hSquare⟩
  · obtain ⟨hBit, hMod⟩ := testBit_last hSize
    have hNegative : a ^ e < 0 := he.pow_neg_iff.mpr ha
    refine ⟨n + 1, by omega, .inl ⟨hBit, ?_⟩⟩
    rw [hMod, wrap_of_fits hFits]
    omega

theorem guessed_zero {e : Nat} (he : e ≠ 0) : Guessed 0 e := by
  obtain ⟨n, hSize⟩ := size_eq_succ he
  refine ⟨n, by omega, .inr ?_⟩
  rw [zero_pow (pow_ne_zero _ two_ne_zero)]
  decide

theorem guessed_one (a : Int) : Guessed a 1 ↔ wrap (a ^ 2) < 1 := by
  simp [Guessed]

theorem not_guessed_iff {a : Int} {e : Nat} (hFits : Fits (a ^ e)) :
    ¬Guessed a e ↔ e = 0 ∨ (0 < a ∨ e = 1 ∨ Even e) ∧ 1 ≤ wrap (a ^ 2 ^ e.size) := by
  rcases eq_or_ne e 0 with rfl | he
  · simp [Guessed]
  rw [or_iff_right he]
  rcases lt_trichotomy a 0 with hNeg | rfl | hPos
  · rcases Nat.even_or_odd e with hEven | hOdd
    · have hFits' : Fits ((-a) ^ e) := by rwa [hEven.neg_pow]
      obtain ⟨n, hSize⟩ := size_eq_succ he
      have hTwo : Even (2 ^ e.size) := by
        rw [hSize]
        exact even_two.pow_of_ne_zero (Nat.succ_ne_zero n)
      rw [← guessed_neg hEven, guessed_of_pos (by omega) he hFits', hTwo.neg_pow, not_lt]
      simp [hEven]
    · rcases eq_or_ne e 1 with rfl | hOne
      · rw [guessed_one, not_lt]
        simp
      · have hNotEven : ¬Even e := Nat.not_even_iff_odd.mpr hOdd
        simp [guessed_of_odd hNeg hOdd hOne hFits, hOne, hNotEven, not_lt.mpr hNeg.le]
  · refine iff_of_false (not_not.mpr (guessed_zero he)) fun ⟨_, hLast⟩ => ?_
    rw [zero_pow (pow_ne_zero _ two_ne_zero)] at hLast
    exact absurd hLast (by decide)
  · rw [guessed_of_pos hPos he hFits, not_lt]
    simp [hPos]

/-! ## The case -/

def GuessesRight (a : Int) (e : Nat) : Prop :=
  if Fits (a ^ e) then e = 0 ∨ (0 < a ∨ e = 1 ∨ Even e) ∧ 1 ≤ wrap (a ^ 2 ^ e.size)
  else Guessed a e

instance (a : Int) (e : Nat) : Decidable (GuessesRight a e) :=
  inferInstanceAs (Decidable (if Fits (a ^ e) then _ else _))

variable {capacity : Nat} {xs : List Word} {memory : Memory} {storage : Storage} {m : Machine}
  {code : Bytecode} {pc : Nat} {a exponent : Word}

theorem expLoop_one (hExponent : 0 ≤ exponent.toInt) (m : Machine) :
    expLoop exponent a 1 m =
      if Guessed a.toInt exponent.toNat then .error (.exit overflowText) m
      else .ok (a ^ exponent.toNat) m := by
  rw [expLoop_eq hExponent, power_eq, one_mul, if_congr (guessed_iff a exponent.toNat) rfl rfl]
  split_ifs <;> rfl

theorem cycle_exp_reports (hCode : code.bytes[pc]? = some 0x0a) (hExponent : 0 ≤ exponent.toInt)
    (h : m.Holds capacity (xs ++ [a, exponent]) memory storage)
    (hGuessed : Guessed a.toInt exponent.toNat) :
    ∃ m', cycle code pc m = .error (.exit overflowText) m' := by
  obtain ⟨m₁, m₂, hFirst, hSecond, _⟩ := stackPop_two (h.fetched pc)
  have hLoop := (expLoop_one hExponent m₂).trans (if_pos hGuessed)
  have hCase : caseEXP (m.fetched pc) = .error (.exit overflowText) m₂ :=
    (bind_of_ok hFirst).trans ((bind_of_ok hSecond).trans (bind_of_error hLoop))
  exact ⟨m₂, (cycle_of_getElem? hCode m).trans (andBreak_of_error hCase _)⟩

theorem cycle_exp_pushes (hCode : code.bytes[pc]? = some 0x0a) (hExponent : 0 ≤ exponent.toInt)
    (h : m.Holds capacity (xs ++ [a, exponent]) memory storage)
    (hNot : ¬Guessed a.toInt exponent.toNat) :
    ∃ m', cycle code pc m = .ok (.inl (pc + 1)) m' ∧
      m'.Holds capacity (xs ++ [a ^ exponent.toNat]) memory storage := by
  have hLength := h.length_le
  rw [List.length_append, List.length_cons] at hLength
  obtain ⟨m₁, m₂, hFirst, hSecond, h₂⟩ := stackPop_two (h.fetched pc)
  have hLoop := (expLoop_one hExponent m₂).trans (if_neg hNot)
  obtain ⟨m₃, hPush, h₃⟩ := stackPush_holds (a ^ exponent.toNat) h₂ (by omega)
  have hCase : caseEXP (m.fetched pc) = .ok () m₃ :=
    (bind_of_ok hFirst).trans ((bind_of_ok hSecond).trans ((bind_of_ok hLoop).trans hPush))
  exact ⟨m₃, (cycle_of_getElem? hCode m).trans (andBreak_of_ok hCase _), h₃⟩

/-- EXP pushes the power if it fits and reports an overflow if it does not, if and only if the
guess is right. -/
theorem exp_exact_iff (hCode : code.bytes[pc]? = some 0x0a) (hExponent : 0 ≤ exponent.toInt)
    (h : m.Holds capacity (xs ++ [a, exponent]) memory storage) :
    ((Fits (a.toInt ^ exponent.toNat) → ∃ m' result, cycle code pc m = .ok (.inl (pc + 1)) m' ∧
        m'.Holds capacity (xs ++ [result]) memory storage ∧
        result.toInt = a.toInt ^ exponent.toNat) ∧
      (¬Fits (a.toInt ^ exponent.toNat) → ∃ m', cycle code pc m =
        .error (.exit "Error: Integer overflow in exponential operation\n") m')) ↔
      GuessesRight a.toInt exponent.toNat := by
  rw [GuessesRight]
  split_ifs with hFits
  · rw [← not_guessed_iff hFits]
    constructor
    · rintro ⟨hPushes, _⟩ hGuessed
      obtain ⟨m', result, hRun, _⟩ := hPushes hFits
      obtain ⟨m'', hStop⟩ := cycle_exp_reports hCode hExponent h hGuessed
      rw [hStop] at hRun
      cases hRun
    · intro hNot
      obtain ⟨m', hRun, hHolds⟩ := cycle_exp_pushes hCode hExponent h hNot
      refine ⟨fun _ => ⟨m', _, hRun, hHolds, ?_⟩, fun hNotFits => absurd hFits hNotFits⟩
      rw [toInt_pow, wrap_of_fits hFits]
  · constructor
    · rintro ⟨_, hReports⟩
      by_contra hNot
      obtain ⟨m', hStop⟩ := hReports hFits
      obtain ⟨m'', hRun, _⟩ := cycle_exp_pushes hCode hExponent h hNot
      rw [hStop] at hRun
      cases hRun
    · intro hGuessed
      exact ⟨fun hYes => absurd hYes hFits, fun _ => cycle_exp_reports hCode hExponent h hGuessed⟩

theorem exp_exact_iff_eight :
    let m : Machine := ⟨{ stackCreate 4 (fun _ => 0) zeroMemory with
      top := 1, data := [2, 3, 0, 0] }, []⟩
    ∃ m' result, cycle ⟨[0x0a], fun _ => 0⟩ 0 m = .ok (.inl 1) m' ∧
      m'.Holds 4 ([] ++ [result]) zeroMemory.val ⟨List.replicate 4 none, []⟩ ∧
      result.toInt = 8 := by
  intro m
  have hHolds : m.Holds 4 ([] ++ [2, 3]) zeroMemory.val ⟨List.replicate 4 none, []⟩ :=
    ⟨⟨rfl, rfl, by decide, by decide⟩, rfl, rfl, rfl⟩
  exact ((exp_exact_iff rfl (by decide) hHolds).mpr (by decide +kernel)).1 (by decide)

/-- 0 to the power of 1 is reported, and the square of 2^33 + 1 comes out as 2^34 + 1. -/
theorem exp_not_exact :
    let run bytes :=
      executeFor ⟨bytes, fun _ => 0⟩ 9 0 (stackCreate 4 (fun _ => 0) zeroMemory).machine
    (Fits (0 ^ 1) ∧ outcome (run [0x60, 0, 0x60, 1, 0x0a]) =
      .error (.exit "Error: Integer overflow in exponential operation\n")) ∧
    (¬Fits ((2 ^ 33 + 1) ^ 2) ∧
      outcome (run [0x60, 1, 0x60, 33, 0x1b, 0x60, 1, 0x01, 0x60, 2, 0x0a]) =
        .ok (.inr ⟨.fellOff, 2 ^ 34 + 1⟩)) := by
  decide +kernel

end Manhattan.Vm
