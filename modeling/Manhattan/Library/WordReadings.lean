import Mathlib

/-! # The two readings of a word

A word of width w is read as a natural number below 2^w or as an integer in two's
complement. The lemmas relate the readings of a word, of its low bits and of the two kinds
of quotients and shifts.
-/

namespace Manhattan.Library.WordReadings

variable {w : Nat}

/-! ## Non-negative words -/

theorem toInt_eq_toNat {x : BitVec w} (h : 0 ≤ x.toInt) : x.toInt = x.toNat := by
  have hLt := x.isLt
  rw [BitVec.toInt_eq_toNat_cond] at h ⊢
  split_ifs at h ⊢ <;> omega

theorem toInt_cases (x : BitVec 64) :
    (x.toInt = x.toNat ∧ x.toNat < 2 ^ 63) ∨ (x.toInt = x.toNat - 2 ^ 64 ∧ 2 ^ 63 ≤ x.toNat) := by
  rw [BitVec.toInt_eq_toNat_cond]
  split <;> omega

/-! ## Low bits -/

theorem toNat_and_low {k : Nat} (x : BitVec w) (hk : k ≤ w) :
    (x &&& BitVec.ofNat w (2 ^ k - 1)).toNat = x.toNat % 2 ^ k := by
  have hPos := Nat.two_pow_pos k
  have hPower : 2 ^ k ≤ 2 ^ w := Nat.pow_le_pow_right (by decide) hk
  rw [BitVec.toNat_and, BitVec.toNat_ofNat, Nat.mod_eq_of_lt (by omega),
    Nat.and_two_pow_sub_one_eq_mod]

theorem toNat_lowBits {k : Nat} (x : BitVec w) (hk : k ≤ w) :
    ((x.setWidth k).setWidth w).toNat = x.toNat % 2 ^ k := by
  rw [BitVec.toNat_setWidth, BitVec.toNat_setWidth]
  refine Nat.mod_eq_of_lt ?_
  exact (Nat.mod_lt _ (Nat.two_pow_pos k)).trans_le (Nat.pow_le_pow_right (by decide) hk)

theorem toInt_emod {k : Nat} (x : BitVec w) (hk : k ≤ w) :
    x.toInt % 2 ^ k = ((x.toNat % 2 ^ k : Nat) : Int) := by
  rw [BitVec.toInt_eq_toNat_bmod, Int.bmod_def]
  push_cast
  have hDvd : (2 ^ k : Int) ∣ 2 ^ w := pow_dvd_pow 2 hk
  split
  · exact Int.emod_emod_of_dvd _ hDvd
  · rw [Int.sub_emod, Int.emod_emod_of_dvd _ hDvd, Int.emod_eq_zero_of_dvd hDvd]
    simp

theorem toInt_lowBits {k : Nat} (x : BitVec w) (hk : k < w) :
    ((x.setWidth k).setWidth w).toInt = x.toInt % 2 ^ k := by
  rw [toInt_emod x hk.le, ← toNat_lowBits x hk.le]
  refine BitVec.toInt_eq_toNat_of_lt ?_
  rw [toNat_lowBits x hk.le]
  have hMod := Nat.mod_lt x.toNat (Nat.two_pow_pos k)
  calc
    2 * (x.toNat % 2 ^ k) < 2 * 2 ^ k := Nat.mul_lt_mul_of_pos_left hMod (by decide)
    _ = 2 ^ (k + 1) := (Nat.pow_succ').symm
    _ ≤ 2 ^ w := Nat.pow_le_pow_right (by decide) hk

/-! ## Shifts -/

theorem ofInt_two_pow (n : Nat) : BitVec.ofInt w (2 ^ n) = BitVec.twoPow w n := by
  have hCast : ((2 ^ n : Nat) : Int) = 2 ^ n := by
    push_cast
    rfl
  rw [← hCast, BitVec.ofInt_natCast]
  exact BitVec.eq_of_toNat_eq (by rw [BitVec.toNat_ofNat, BitVec.toNat_twoPow])

theorem ofInt_mul_two_pow (x : BitVec w) (n : Nat) :
    BitVec.ofInt w (x.toInt * 2 ^ n) = x <<< n := by
  rw [BitVec.ofInt_mul, BitVec.ofInt_toInt, ofInt_two_pow, BitVec.shiftLeft_eq_mul_twoPow]

theorem ofNat_div_two_pow (x : BitVec w) (n : Nat) :
    BitVec.ofNat w (x.toNat / 2 ^ n) = x >>> n := by
  rw [← Nat.shiftRight_eq_div_pow, ← BitVec.toNat_ushiftRight, BitVec.ofNat_toNat,
    BitVec.setWidth_eq]

theorem toInt_sshiftRight_eq_div (x : BitVec w) (n : Nat) :
    (x.sshiftRight n).toInt = x.toInt / 2 ^ n := by
  rw [BitVec.toInt_sshiftRight, Int.shiftRight_eq_div_pow]
  push_cast
  rfl

theorem ofInt_div_two_pow (x : BitVec w) (n : Nat) :
    BitVec.ofInt w (x.toInt / 2 ^ n) = x.sshiftRight n := by
  rw [← toInt_sshiftRight_eq_div, BitVec.ofInt_toInt]

theorem shiftLeft_eq_zero_iff (x : BitVec w) (n : Nat) :
    x <<< n = 0#w ↔ 2 ^ w ∣ x.toNat * 2 ^ n := by
  rw [← BitVec.toNat_inj, BitVec.toNat_shiftLeft, Nat.shiftLeft_eq, Nat.dvd_iff_mod_eq_zero]
  simp

theorem sshiftRight_eq_iff (x : BitVec w) (n : Nat) (y : BitVec w) :
    x.sshiftRight n = y ↔
      y.toInt * 2 ^ n ≤ x.toInt ∧ x.toInt < y.toInt * 2 ^ n + 2 ^ n := by
  rw [← BitVec.toInt_inj, toInt_sshiftRight_eq_div, Int.ediv_eq_iff_of_pos (by positivity)]

/-- A shift by the width or more leaves the sign only. -/
theorem toInt_div_of_le (x : BitVec w) {n : Nat} (hn : w ≤ n) :
    x.toInt / 2 ^ n = if x.toInt < 0 then -1 else 0 := by
  have hPow : (2 : Int) ^ (w - 1) ≤ 2 ^ n := pow_le_pow_right₀ (by decide) (by omega)
  have hLower := x.le_toInt
  have hUpper := x.toInt_lt
  split
  · rw [Int.ediv_eq_iff_of_pos (by positivity)]
    omega
  · rw [Int.ediv_eq_iff_of_pos (by positivity)]
    omega

theorem sshiftRight_eq_ushiftRight_iff (x : BitVec w) (n : Nat) :
    x.sshiftRight n = x >>> n ↔ n = 0 ∨ 0 ≤ x.toInt := by
  by_cases hSign : x.toInt < 0
  · constructor
    · intro hEq
      by_contra hNot
      have hNonneg : 0 ≤ (x >>> n).toInt := by
        rw [BitVec.toInt_ushiftRight_of_lt (by omega)]
        positivity
      rw [← hEq, toInt_sshiftRight_eq_div] at hNonneg
      have hNeg := Int.ediv_neg_of_neg_of_pos hSign (show (0 : Int) < 2 ^ n by positivity)
      omega
    · rintro (rfl | h)
      · simp
      · omega
  · have hMsb : x.msb = false := by
      rw [BitVec.msb_eq_toInt]
      exact decide_eq_false hSign
    exact iff_of_true (BitVec.sshiftRight_eq_of_msb_false hMsb) (.inr (by omega))

/-! ## Quotients and remainders -/

/-- The two readings by the sign; for a negative word also the magnitude. -/
theorem reading_cases (x : BitVec w) :
    (x.msb = false ∧ 0 ≤ x.toInt ∧ x.toInt = x.toNat ∧ 2 * x.toNat < 2 ^ w) ∨
      (x.msb = true ∧ x.toInt < 0 ∧ x.toInt = x.toNat - ((2 ^ w : Nat) : Int) ∧ 2 ^ w ≤ 2 * x.toNat ∧
        (-x).toNat + x.toNat = 2 ^ w) := by
  have hLt := x.isLt
  have hMsb : x.msb = decide (x.toInt < 0) := BitVec.msb_eq_toInt
  rw [BitVec.toInt_eq_toNat_cond] at hMsb ⊢
  split at hMsb
  · rename_i hHalf
    refine .inl ⟨?_, ?_, ?_, hHalf⟩
    · rw [hMsb]
      exact decide_eq_false (by omega)
    all_goals
      rw [if_pos hHalf]
    omega
  · rename_i hHalf
    refine .inr ⟨?_, ?_, ?_, by omega, ?_⟩
    · rw [hMsb]
      exact decide_eq_true (by omega)
    · rw [if_neg hHalf]
      omega
    · rw [if_neg hHalf]
    · rw [BitVec.toNat_neg, Nat.mod_eq_of_lt (by omega)]
      exact Nat.sub_add_cancel hLt.le

theorem quotients_add {x p y n : Nat} (hSum : p + x = n) (hy : 2 ≤ y) (hyx : y ≤ x) :
    0 < x / y ∧ x / y + p / y < n := by
  constructor
  · exact Nat.div_pos hyx (by omega)
  · calc
      x / y + p / y ≤ (x + p) / y := Nat.div_add_div_le_add_div
      _ = n / y := by rw [Nat.add_comm, hSum]
      _ < n := Nat.div_lt_self (by omega) hy

theorem eq_neg_iff (u z : BitVec w) :
    u = -z ↔ u.toNat + z.toNat = 0 ∨ u.toNat + z.toNat = 2 ^ w := by
  have hu := u.isLt
  have hz := z.isLt
  rw [← BitVec.toNat_inj, BitVec.toNat_neg]
  obtain hZero | hPos := Nat.eq_zero_or_pos z.toNat
  · rw [hZero, Nat.sub_zero, Nat.mod_self]
    omega
  · rw [Nat.mod_eq_of_lt (by omega)]
    omega

theorem udiv_eq_sdiv_iff {x y : BitVec w} (hy : y ≠ 0) :
    x / y = x.sdiv y ↔
      (0 ≤ x.toInt ∧ (0 < y.toInt ∨ x.toInt < -y.toInt)) ∨ (x.toInt < 0 ∧ y.toInt = 1) ∨
        x = y := by
  have hyNat : y.toNat ≠ 0 := fun h => hy (BitVec.eq_of_toNat_eq h)
  have hx := x.isLt
  rw [← BitVec.toNat_inj (x := x) (y := y), BitVec.sdiv_eq]
  obtain ⟨hxMsb, hxSign, hxRead, hxHalf⟩ | ⟨hxMsb, hxSign, hxRead, hxHalf, hxNeg⟩ :=
    reading_cases x
  · obtain ⟨hyMsb, hySign, hyRead, hyHalf⟩ | ⟨hyMsb, hySign, hyRead, hyHalf, hyNeg⟩ :=
      reading_cases y
    · rw [hxMsb, hyMsb]
      exact iff_of_true rfl (by omega)
    · rw [hxMsb, hyMsb]
      -- as a natural number y is above x, so the unsigned quotient is 0
      change x / y = -(x / -y) ↔ _
      have hLe := Nat.div_le_self x.toNat (-y).toNat
      have hQuotient : x.toNat / (-y).toNat = 0 ↔ x.toNat < (-y).toNat := by
        rw [Nat.div_eq_zero_iff]
        omega
      rw [eq_neg_iff, BitVec.toNat_udiv, BitVec.toNat_udiv,
        Nat.div_eq_of_lt (by omega : x.toNat < y.toNat), Nat.zero_add]
      omega
  · obtain ⟨hyMsb, hySign, hyRead, hyHalf⟩ | ⟨hyMsb, hySign, hyRead, hyHalf, hyNeg⟩ :=
      reading_cases y
    · rw [hxMsb, hyMsb]
      -- the quotients of x and of 2^w - x add up to 2^w only for y = 1
      change x / y = -(-x / y) ↔ _
      rw [eq_neg_iff, BitVec.toNat_udiv, BitVec.toNat_udiv]
      obtain hOne | hTwo : y.toNat = 1 ∨ 2 ≤ y.toNat := by omega
      · rw [hOne, Nat.div_one, Nat.div_one]
        omega
      · have hBounds := quotients_add hxNeg hTwo (by omega)
        generalize x.toNat / y.toNat = q, (-x).toNat / y.toNat = q' at hBounds ⊢
        omega
    · rw [hxMsb, hyMsb]
      -- the order of the magnitudes is the reverse of the order of the words
      change x / y = -x / -y ↔ _
      rw [← BitVec.toNat_inj, BitVec.toNat_udiv, BitVec.toNat_udiv]
      obtain hLess | hEq | hGreater := Nat.lt_trichotomy x.toNat y.toNat
      · have hPos : 0 < (-x).toNat / (-y).toNat := Nat.div_pos (by omega) (by omega)
        rw [Nat.div_eq_of_lt hLess]
        omega
      · have hNegEq : (-x).toNat = (-y).toNat := by omega
        refine iff_of_true ?_ (.inr (.inr hEq))
        rw [hEq, hNegEq, Nat.div_self (by omega), Nat.div_self (by omega)]
      · have hPos : 0 < x.toNat / y.toNat := Nat.div_pos hGreater.le (by omega)
        rw [Nat.div_eq_of_lt (by omega : (-x).toNat < (-y).toNat)]
        omega

theorem mod_eq_self_iff {n k : Nat} (hk : 0 < k) : n % k = n ↔ n < k :=
  ⟨fun h => h ▸ Nat.mod_lt n hk, Nat.mod_eq_of_lt⟩

theorem dvd_pair_iff {x p y n : Nat} (hSum : p + x = n) :
    (x % y = 0 ∧ p % y = 0) ↔ (y : Int) ∣ -(p : Int) ∧ (y : Int) ∣ (n : Int) := by
  rw [← Nat.dvd_iff_mod_eq_zero, ← Nat.dvd_iff_mod_eq_zero, Int.dvd_neg, Int.natCast_dvd_natCast,
    Int.natCast_dvd_natCast, ← hSum]
  constructor
  · rintro ⟨hx, hp⟩
    exact ⟨hp, dvd_add hp hx⟩
  · rintro ⟨hp, hn⟩
    exact ⟨(Nat.dvd_add_iff_right hp).mpr hn, hp⟩

theorem umod_eq_srem_iff {x y : BitVec w} (hy : y ≠ 0) :
    x % y = x.srem y ↔
      (0 ≤ x.toInt ∧ (0 < y.toInt ∨ x.toInt < -y.toInt)) ∨
        (x.toInt < 0 ∧ 0 < y.toInt ∧ y.toInt ∣ x.toInt ∧ y.toInt ∣ ((2 ^ w : Nat) : Int)) ∨
        x = y := by
  have hyNat : y.toNat ≠ 0 := fun h => hy (BitVec.eq_of_toNat_eq h)
  rw [← BitVec.toNat_inj (x := x) (y := y), BitVec.srem_eq]
  obtain ⟨hxMsb, hxSign, hxRead, hxHalf⟩ | ⟨hxMsb, hxSign, hxRead, hxHalf, hxNeg⟩ :=
    reading_cases x
  · obtain ⟨hyMsb, hySign, hyRead, hyHalf⟩ | ⟨hyMsb, hySign, hyRead, hyHalf, hyNeg⟩ :=
      reading_cases y
    · rw [hxMsb, hyMsb]
      exact iff_of_true rfl (by omega)
    · rw [hxMsb, hyMsb]
      change x % y = x % -y ↔ _
      rw [← BitVec.toNat_inj, BitVec.toNat_umod, BitVec.toNat_umod,
        Nat.mod_eq_of_lt (by omega : x.toNat < y.toNat), eq_comm, mod_eq_self_iff (by omega)]
      omega
  · obtain ⟨hyMsb, hySign, hyRead, hyHalf⟩ | ⟨hyMsb, hySign, hyRead, hyHalf, hyNeg⟩ :=
      reading_cases y
    · rw [hxMsb, hyMsb]
      -- both remainders are below y, so they cancel only when both are 0
      change x % y = -(-x % y) ↔ _
      have hDvd := dvd_pair_iff (y := y.toNat) hxNeg
      have hLower : x.toInt = -((-x).toNat : Int) := by omega
      have hRight := Nat.mod_lt x.toNat (by omega : 0 < y.toNat)
      have hLeft := Nat.mod_lt (-x).toNat (by omega : 0 < y.toNat)
      rw [← hLower, ← hyRead] at hDvd
      rw [eq_neg_iff, BitVec.toNat_umod, BitVec.toNat_umod, ← hDvd]
      generalize x.toNat % y.toNat = r, (-x).toNat % y.toNat = r' at hRight hLeft ⊢
      omega
    · rw [hxMsb, hyMsb]
      change x % y = -(-x % -y) ↔ _
      rw [eq_neg_iff, BitVec.toNat_umod, BitVec.toNat_umod]
      obtain hLess | hEq | hGreater := Nat.lt_trichotomy x.toNat y.toNat
      · have hMod := Nat.mod_lt (-x).toNat (by omega : 0 < (-y).toNat)
        rw [Nat.mod_eq_of_lt hLess]
        generalize (-x).toNat % (-y).toNat = r at hMod ⊢
        omega
      · have hNegEq : (-x).toNat = (-y).toNat := by omega
        refine iff_of_true (.inl ?_) (.inr (.inr hEq))
        rw [hEq, hNegEq, Nat.mod_self, Nat.mod_self]
      · rw [Nat.mod_eq_sub_mod hGreater.le, Nat.mod_eq_of_lt (by omega : x.toNat - y.toNat < y.toNat),
          Nat.mod_eq_of_lt (by omega : (-x).toNat < (-y).toNat)]
        omega

theorem tmod_between (x y : Int) :
    (0 ≤ x → 0 ≤ x.tmod y ∧ x.tmod y ≤ x) ∧ (x ≤ 0 → x ≤ x.tmod y ∧ x.tmod y ≤ 0) := by
  have hAbs := Int.natAbs_tmod x y
  have hLe := Nat.mod_le x.natAbs y.natAbs
  constructor
  · intro hx
    have hNonneg := Int.tmod_nonneg y hx
    omega
  · intro hx
    have hNonneg := Int.tmod_nonneg y (show 0 ≤ -x by omega)
    rw [Int.neg_tmod] at hNonneg
    omega

theorem natAbs_tmod_lt (x : Int) {y : Int} (hy : y ≠ 0) : (x.tmod y).natAbs < y.natAbs := by
  rw [Int.natAbs_tmod]
  exact Nat.mod_lt _ (Int.natAbs_pos.mpr hy)

/-- Quotient times divisor plus remainder is the dividend, in words as in integers. -/
theorem sdiv_mul_add_srem {x y : BitVec w} (h : x ≠ BitVec.intMin w ∨ y ≠ -1#w) :
    x.sdiv y * y + x.srem y = x :=
  calc
    x.sdiv y * y + x.srem y =
        BitVec.ofInt w (x.toInt.tdiv y.toInt * y.toInt + x.toInt.tmod y.toInt) := by
      rw [BitVec.ofInt_add, BitVec.ofInt_mul, ← BitVec.toInt_sdiv_of_ne_or_ne x y h,
        ← BitVec.toInt_srem, BitVec.ofInt_toInt, BitVec.ofInt_toInt, BitVec.ofInt_toInt]
    _ = x := by rw [Int.mul_comm, Int.mul_tdiv_add_tmod, BitVec.ofInt_toInt]

/-! ## Remainders after a wrap-around -/

/-- The truncated remainder of v is the residue of e. -/
theorem tmod_eq_emod_iff {v e c : Int} (hc : 0 < c) :
    v.tmod c = e % c ↔ c ∣ e - v ∧ (0 ≤ v ∨ c ∣ e) := by
  have hDifference : e - v = c * (e / c - v.tdiv c) + (e % c - v.tmod c) := by
    have hExact := Int.mul_ediv_add_emod e c
    have hTruncated := Int.mul_tdiv_add_tmod v c
    rw [mul_sub]
    omega
  constructor
  · intro h
    refine ⟨⟨e / c - v.tdiv c, by omega⟩, ?_⟩
    obtain hNonneg | hNeg := le_or_gt 0 v
    · exact .inl hNonneg
    · have hResidue := Int.emod_nonneg e hc.ne'
      have hRemainder := ((tmod_between v c).2 hNeg.le).2
      exact .inr (Int.dvd_of_emod_eq_zero (by omega))
  · rintro ⟨hDvd, hNonneg | hExact⟩
    · rw [Int.tmod_eq_emod_of_nonneg hNonneg]
      exact (Int.emod_eq_emod_iff_emod_sub_eq_zero.mpr (Int.emod_eq_zero_of_dvd hDvd)).symm
    · have hWrapped : c ∣ v := (Int.dvd_iff_dvd_of_dvd_sub hDvd).mp hExact
      rw [Int.tmod_eq_zero_of_dvd hWrapped, Int.emod_eq_zero_of_dvd hExact]

/-- The signed value of the low bits, and the multiple of 2^64 that is dropped. -/
theorem sub_bmod_eq (x : Int) : x - x.bmod (2 ^ 64) = (x + 2 ^ 63) / 2 ^ 64 * 2 ^ 64 := by
  rw [Int.bmod_def]
  split <;> omega

theorem bmod_nonneg_iff (x : Int) : 0 ≤ x.bmod (2 ^ 64) ↔ x % 2 ^ 64 < 2 ^ 63 := by
  rw [Int.bmod_def]
  split <;> omega

/-! ## Counting up -/

theorem add_ofNat_succ {w : Nat} (v : BitVec w) (k : Nat) :
    v + BitVec.ofNat w (k + 1) = v + 1 + BitVec.ofNat w k := by
  rw [Nat.add_comm k 1, BitVec.ofNat_add, ← BitVec.add_assoc]
  rfl

end Manhattan.Library.WordReadings
