import Manhattan.Library.Conversions
import Manhattan.Library.Separated

/-! # What the start of a printed number keeps

The text of `%.pf` for a number of units of `10 ^ -p` begins with the text of the same
number without its last digits, and with its whole part alone. Each of these texts is that
of one number only.
-/

namespace Manhattan.Library.FixedPoint

open CStrings Conversions Separated

/-! ## Digits -/

theorem decimalNat_split_one {n : Nat} (h : n / 10 ≠ 0) :
    decimalNat n = decimalNat (n / 10) ++ decimals 1 n := by
  have hn : n ≠ 0 := by omega
  apply CString.ext
  have hDigits := Nat.digits_def' (by decide : 1 < 10) (Nat.pos_of_ne_zero hn)
  simp only [decimalNat, if_neg hn, if_neg h, hDigits, List.reverse_cons, List.map_append]
  rfl

theorem decimals_add (k j n : Nat) : decimals (k + j) n = decimals k (n / 10 ^ j) ++ decimals j n := by
  induction j generalizing n with
  | zero => exact CString.ext (by simp [decimals, CString.empty])
  | succ j ih =>
    rw [← Nat.add_assoc, decimals, ih, decimals, CString.append_assoc, Nat.div_div_eq_div_mul,
      Nat.pow_succ']

theorem decimalNat_split {n : Nat} (k : Nat) (h : n / 10 ^ k ≠ 0) :
    decimalNat n = decimalNat (n / 10 ^ k) ++ decimals k n := by
  induction k generalizing n with
  | zero => exact CString.ext (by simp [decimals, CString.empty])
  | succ k ih =>
    have hStep : n / 10 / 10 ^ k = n / 10 ^ (k + 1) := by
      rw [Nat.div_div_eq_div_mul, Nat.pow_succ']
    have hTenth : n / 10 ≠ 0 := by
      intro hZero
      rw [← hStep, hZero, Nat.zero_div] at h
      exact h rfl
    have hDigits := decimals_add k 1 n
    rw [Nat.pow_one] at hDigits
    rw [decimalNat_split_one hTenth, ih (hStep ▸ h), hStep, hDigits, CString.append_assoc]

theorem decimalNat_injective : Function.Injective decimalNat := by
  intro n m h
  rw [← numberOf_decimalNat n, h, numberOf_decimalNat]

theorem decimals_eq_iff {k n m : Nat} : decimals k n = decimals k m ↔ n % 10 ^ k = m % 10 ^ k := by
  induction k generalizing n m with
  | zero => simp [decimals, Nat.mod_one]
  | succ k ih =>
    have hLast : ∀ a < 10, ∀ b < 10, decimalDigit a = decimalDigit b → a = b := by decide
    have hModulus : ∀ x : Nat, x % 10 ^ (k + 1) = x % 10 + 10 * (x / 10 % 10 ^ k) := by
      intro x
      rw [Nat.pow_succ', Nat.mod_mul]
    constructor
    · intro h
      obtain ⟨hHead, hTail⟩ := CString.append_inj h (by rw [length_decimals, length_decimals])
      have hDigit := hLast _ (Nat.mod_lt n (by decide)) _ (Nat.mod_lt m (by decide))
        (List.cons.inj (congrArg CString.chars hTail)).1
      rw [hModulus, hModulus, hDigit, ih.mp hHead]
    · intro h
      rw [hModulus, hModulus] at h
      have hDigit : n % 10 = m % 10 := by omega
      have hRest : n / 10 % 10 ^ k = m / 10 % 10 ^ k := by omega
      simp only [decimals, ih.mpr hRest, hDigit]

theorem length_decimalNat_pos (n : Nat) : 0 < (decimalNat n).length := by
  unfold decimalNat CString.length
  split
  · exact Nat.one_pos
  · rename_i hn
    have hDigits : (Nat.digits 10 n).length ≠ 0 := fun h =>
      hn (Nat.digits_eq_nil_iff_eq_zero.mp (List.length_eq_zero_iff.mp h))
    rw [List.length_map, List.length_reverse]
    omega

/-! ## The point -/

theorem point_not_mem_decimalNat (n : Nat) : (46 : Byte) ∉ (decimalNat n).chars := fun h =>
  absurd (le_toNat_of_mem_decimalNat h) (by decide)

theorem chars_fixedPoint (k n : Nat) :
    (fixedPoint k n).chars = (decimalNat (n / 10 ^ k)).chars ++ 46 :: (decimals k n).chars := by
  simp [fixedPoint, point]

theorem length_fixedPoint (k n : Nat) :
    (fixedPoint k n).length = (decimalNat (n / 10 ^ k)).length + 1 + k := by
  have hPoint : point.length = 1 := rfl
  simp only [fixedPoint, CString.length_append, length_decimals, hPoint]

theorem fixedPoint_inj {k j n m : Nat} (h : fixedPoint k n = fixedPoint j m) : k = j ∧ n = m := by
  have hChars := congrArg CString.chars h
  rw [chars_fixedPoint, chars_fixedPoint] at hChars
  obtain ⟨hWhole, hDecimals⟩ :=
    head_inj (point_not_mem_decimalNat _) (point_not_mem_decimalNat _) hChars
  have hLength : (decimals k n).length = (decimals j m).length := congrArg List.length hDecimals
  rw [length_decimals, length_decimals] at hLength
  subst hLength
  have hQuotient := decimalNat_injective (CString.ext hWhole)
  have hRemainder := decimals_eq_iff.mp (CString.ext hDecimals)
  refine ⟨rfl, ?_⟩
  rw [← Nat.div_add_mod n (10 ^ k), hQuotient, hRemainder, Nat.div_add_mod]

theorem fixedPoint_split {k p : Nat} (hk : k ≤ p) (n : Nat) :
    fixedPoint p n = fixedPoint k (n / 10 ^ (p - k)) ++ decimals (p - k) n := by
  obtain ⟨j, rfl⟩ := Nat.exists_eq_add_of_le hk
  rw [Nat.add_sub_cancel_left, fixedPoint, fixedPoint, decimals_add, Nat.div_div_eq_div_mul,
    ← Nat.pow_add, Nat.add_comm j k, ← CString.append_assoc]

theorem take_append_of_length {s t : CString} {n : Nat} (h : s.length = n) : (s ++ t).take n = s := by
  subst h
  exact CString.ext List.take_left

end Manhattan.Library.FixedPoint
