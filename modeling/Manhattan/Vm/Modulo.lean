import Manhattan.Vm.Division

/-! # ADDMOD and MULMOD

The sum and the product are cut down to a signed word before the remainder is taken. What is
pushed is the residue of the exact value as long as nothing was cut off, and beyond that only
for the moduli that divide what was.
-/

namespace Manhattan.Vm

open Library.ExecRules Library.WordReadings

/-- The opcode leaves the residue of the exact value, between 0 and the modulus. -/
def Reduces (opcode : Byte) (a b c : Word) (exact : Int) : Prop :=
  ∃ r, Replaces [opcode] [a, b, c] [r] ∧ r.toInt = exact % c.toInt ∧
    0 ≤ r.toInt ∧ r.toInt < c.toInt

/-! ## What is pushed -/

variable {a b c : Word}

theorem rewrites_moduloCase {operation : Word → Word → Word} (h : Divides (operation a b) c) :
    Rewrites (moduloCase operation) [a, b, c] () [(operation a b).srem c] := by
  refine ((rewrites_stackPop c).frame [a, b]).bind ?_ (by simp)
  refine ((rewrites_stackPop b).frame [a]).bind ?_ (by simp)
  refine (rewrites_stackPop a).bind ?_ (by simp)
  rw [exitIf_of_not h.1, pure_bind, h.cRem, pure_bind]
  exact rewrites_stackPush _

theorem replaces_addmod (h : Divides (a + b) c) : Replaces [0x08] [a, b, c] [(a + b).srem c] :=
  replaces_opcode (fun _ _ => rfl) (rewrites_moduloCase h)

theorem replaces_mulmod (h : Divides (a * b) c) : Replaces [0x09] [a, b, c] [(a * b).srem c] :=
  replaces_opcode (fun _ _ => rfl) (rewrites_moduloCase h)

theorem divides_of_pos (v : Word) (hc : 0 < c.toInt) : Divides v c := by
  refine divides_of_ne v ?_ ?_
  · rintro rfl
    simp at hc
  · rintro rfl
    revert hc
    decide

/-! ## When it is the residue -/

theorem reduces_iff {opcode : Byte} {v : Word} {exact : Int} (hc : 0 < c.toInt)
    (hRun : Replaces [opcode] [a, b, c] [v.srem c]) (hv : v.toInt = wrap exact) :
    Reduces opcode a b c exact ↔
      c.toInt ∣ (exact + 2 ^ 63) / 2 ^ 64 * 2 ^ 64 ∧
        (exact % 2 ^ 64 < 2 ^ 63 ∨ c.toInt ∣ exact) := by
  have hPushed : (v.srem c).toInt = (wrap exact).tmod c.toInt := by
    rw [BitVec.toInt_srem, hv]
  rw [← sub_bmod_eq, ← bmod_nonneg_iff, ← tmod_eq_emod_iff hc]
  constructor
  · rintro ⟨r, hReplaces, hResidue, _⟩
    obtain rfl : r = v.srem c := List.head_eq_of_cons_eq (hRun.iff_eq.mp hReplaces)
    exact hPushed.symm.trans hResidue
  · intro hResidue
    have hSame : (v.srem c).toInt = exact % c.toInt := hPushed.trans hResidue
    refine ⟨v.srem c, hRun, hSame, ?_, ?_⟩
    · rw [hSame]
      exact Int.emod_nonneg _ hc.ne'
    · rw [hSame]
      exact Int.emod_lt_of_pos _ hc

theorem reduces_addmod_iff (hc : 0 < c.toInt) :
    Reduces 0x08 a b c (a.toInt + b.toInt) ↔
      c.toInt ∣ (a.toInt + b.toInt + 2 ^ 63) / 2 ^ 64 * 2 ^ 64 ∧
        ((a.toInt + b.toInt) % 2 ^ 64 < 2 ^ 63 ∨ c.toInt ∣ a.toInt + b.toInt) :=
  reduces_iff hc (replaces_addmod (divides_of_pos _ hc)) (BitVec.toInt_add a b)

theorem reduces_mulmod_iff (hc : 0 < c.toInt) :
    Reduces 0x09 a b c (a.toInt * b.toInt) ↔
      c.toInt ∣ (a.toInt * b.toInt + 2 ^ 63) / 2 ^ 64 * 2 ^ 64 ∧
        (a.toInt * b.toInt % 2 ^ 64 < 2 ^ 63 ∨ c.toInt ∣ a.toInt * b.toInt) :=
  reduces_iff hc (replaces_mulmod (divides_of_pos _ hc)) (BitVec.toInt_mul a b)

theorem sum_condition_iff {s c : Int} (hLower : 0 ≤ s) (hUpper : s < 2 ^ 64) :
    (c ∣ (s + 2 ^ 63) / 2 ^ 64 * 2 ^ 64 ∧ (s % 2 ^ 64 < 2 ^ 63 ∨ c ∣ s)) ↔
      s < 2 ^ 63 ∨ (c ∣ 2 ^ 64 ∧ c ∣ s) := by
  obtain hFits | hOver := lt_or_ge s (2 ^ 63)
  · have hNone : (s + 2 ^ 63) / 2 ^ 64 = 0 := by omega
    rw [hNone, Int.zero_mul]
    exact iff_of_true ⟨dvd_zero c, .inl (by omega)⟩ (.inl hFits)
  · have hOnce : (s + 2 ^ 63) / 2 ^ 64 = 1 := by omega
    rw [hOnce, Int.one_mul, or_iff_right (by omega), or_iff_right (by omega)]

/-- ADDMOD and MULMOD reduce the exact value if and only if the modulus divides what its
wrap-around drops, and the value stays non-negative or is a multiple of the modulus. -/
theorem modulo_exact_iff (a b c : Word) (ha : 0 ≤ a.toInt) (hb : 0 ≤ b.toInt) (hc : 0 < c.toInt) :
    (Reduces 0x08 a b c (a.toInt + b.toInt) ↔
      a.toInt + b.toInt < 2 ^ 63 ∨ (c.toInt ∣ 2 ^ 64 ∧ c.toInt ∣ a.toInt + b.toInt)) ∧
    (Reduces 0x09 a b c (a.toInt * b.toInt) ↔
      c.toInt ∣ (a.toInt * b.toInt + 2 ^ 63) / 2 ^ 64 * 2 ^ 64 ∧
        (a.toInt * b.toInt % 2 ^ 64 < 2 ^ 63 ∨ c.toInt ∣ a.toInt * b.toInt)) := by
  have haUpper := (fits_toInt a).2
  have hbUpper := (fits_toInt b).2
  exact ⟨(reduces_addmod_iff hc).trans (sum_condition_iff (by omega) (by omega)),
    reduces_mulmod_iff hc⟩

/-- 2^62 + 2^62 and 2^62 * 2^62 modulo 3 -/
theorem modulo_not_exact :
    let run (opcode : Byte) := (final (executeFor ⟨[0x60, 1, 0x60, 62, 0x1b, 0x60, 1, 0x60, 62,
      0x1b, 0x60, 3, opcode], fun _ => 0⟩ 8 0 (stackCreate 4 (fun _ => 0) zeroMemory).machine)).stack
    let a : Word := 0x4000000000000000
    ((run 0x08).items = [-2] ∧ (a.toInt + a.toInt) % 3 = 2) ∧
      ((run 0x09).items = [0] ∧ a.toInt * a.toInt % 3 = 1) ∧
      ¬Reduces 0x08 a a 3 (a.toInt + a.toInt) ∧ ¬Reduces 0x09 a a 3 (a.toInt * a.toInt) := by
  refine ⟨by decide +kernel, by decide +kernel, fun hSum => ?_, fun hProduct => ?_⟩
  · rw [reduces_addmod_iff (by decide)] at hSum
    revert hSum
    decide
  · rw [reduces_mulmod_iff (by decide)] at hProduct
    revert hProduct
    decide

theorem modulo_exact_iff_seven :
    let a : Word := 0x4000000000000000
    Reduces 0x08 a a 4 (a.toInt + a.toInt) ∧
      Reduces 0x09 5 6 7 ((5 : Word).toInt * (6 : Word).toInt) :=
  ⟨(modulo_exact_iff _ _ 4 (by decide) (by decide) (by decide)).1.mpr (by decide),
    (modulo_exact_iff 5 6 7 (by decide) (by decide) (by decide)).2.mpr (by decide)⟩

end Manhattan.Vm
