import Manhattan.Library.CStrings
import Manhattan.Library.Positional

/-! # Numbers in an array of machine words

The words of a number lie in an array, the most significant first. The number is multiplied by a
factor and a carry is added, in products of twice as many bits as a word has, from the last word on.
-/

namespace Manhattan.Library.Limbs

open CStrings Positional

variable {w : Nat}

def toNats (words : List (BitVec w)) : List Nat := words.map BitVec.toNat

/-- `for (j = n; j--; )`: the words, and what is carried out of the first. -/
def mulAdd (factor : BitVec (w + w)) (c : BitVec w) :
    List (BitVec w) → List (BitVec w) × BitVec w
  | [] => ([], c)
  | word :: words =>
    let (words', c') := mulAdd factor c words
    let t := word.setWidth (w + w) * factor + c'.setWidth (w + w)
    (t.setWidth w :: words', (t >>> w).setWidth w)

/-- `for (i = n; i > 0; --i) *(p++) = (word >> (8 * (i - 1))) & 0xff` -/
def bytesOf (word : BitVec w) : Nat → List Byte
  | 0 => []
  | i + 1 => (word >>> (8 * i)).setWidth 8 :: bytesOf word i

theorem length_toNats (words : List (BitVec w)) : (toNats words).length = words.length :=
  List.length_map ..

theorem toNats_lt {words : List (BitVec w)} {d : Nat} (h : d ∈ toNats words) : d < 2 ^ w := by
  obtain ⟨word, _, rfl⟩ := List.mem_map.mp h
  exact word.isLt

theorem value_toNats_lt (words : List (BitVec w)) (hw : 0 < w) :
    value (2 ^ w) (toNats words) < (2 ^ w) ^ words.length := by
  have hValue := value_lt (Nat.one_lt_two_pow hw.ne') fun d hd => @toNats_lt w words d hd
  rwa [length_toNats] at hValue

theorem value_cons (base d : Nat) (digits : List Nat) :
    value base (d :: digits) = base ^ digits.length * d + value base digits := by
  have hHead : value base [d] = d := Nat.ofDigits_singleton
  rw [← List.singleton_append, value_append, hHead]

theorem value_lt_iff {base : Nat} (hBase : 1 < base) {digits : List Nat}
    (hDigits : ∀ d ∈ digits, d < base) (d bound : Nat) :
    value base (d :: digits) < base ^ digits.length * bound ↔ d < bound := by
  have hRest := value_lt hBase hDigits
  rw [value_cons]
  constructor
  · intro h
    by_contra hLarge
    have hMany := Nat.mul_le_mul_left (base ^ digits.length) (Nat.le_of_not_lt hLarge)
    omega
  · intro h
    have hNext := Nat.mul_le_mul_left (base ^ digits.length) (Nat.succ_le_of_lt h)
    rw [Nat.succ_eq_add_one, Nat.mul_add, Nat.mul_one] at hNext
    omega

/-! ## Multiply and add -/

theorem length_mulAdd (factor : BitVec (w + w)) (c : BitVec w) (words : List (BitVec w)) :
    (mulAdd factor c words).1.length = words.length := by
  induction words with
  | nil => rfl
  | cons word words ih => simp [mulAdd, ih]

/-- A product of one word has room for the carry. -/
theorem toNat_step {factor : BitVec (w + w)} (hFactor : factor.toNat < 2 ^ w)
    (word c : BitVec w) :
    (word.setWidth (w + w) * factor + c.setWidth (w + w)).toNat =
      word.toNat * factor.toNat + c.toNat := by
  have hRoom : word.toNat * factor.toNat + c.toNat < 2 ^ (w + w) := by
    have hWord := word.isLt
    have hc := c.isLt
    have hProduct : word.toNat * factor.toNat ≤ (2 ^ w - 1) * (2 ^ w - 1) :=
      Nat.mul_le_mul (by omega) (by omega)
    obtain ⟨m, hm⟩ : ∃ m, 2 ^ w = m + 1 := ⟨2 ^ w - 1, by omega⟩
    rw [pow_add]
    rw [hm, Nat.add_sub_cancel] at hProduct
    rw [hm] at hc ⊢
    have hSquare : (m + 1) * (m + 1) = m * m + 2 * m + 1 := by ring
    omega
  have hWord : word.toNat < 2 ^ (w + w) :=
    word.isLt.trans_le (Nat.pow_le_pow_right (by decide) (Nat.le_add_right w w))
  have hc : c.toNat < 2 ^ (w + w) :=
    c.isLt.trans_le (Nat.pow_le_pow_right (by decide) (Nat.le_add_right w w))
  simp only [BitVec.toNat_add, BitVec.toNat_mul, BitVec.toNat_setWidth, Nat.mod_eq_of_lt hWord,
    Nat.mod_eq_of_lt hc, Nat.mod_add_mod]
  exact Nat.mod_eq_of_lt hRoom

theorem value_mulAdd {factor : BitVec (w + w)} (hFactor : factor.toNat < 2 ^ w) (c : BitVec w)
    (words : List (BitVec w)) :
    value (2 ^ w) (toNats (mulAdd factor c words).1) +
        (2 ^ w) ^ words.length * (mulAdd factor c words).2.toNat =
      factor.toNat * value (2 ^ w) (toNats words) + c.toNat := by
  induction words with
  | nil => simp [mulAdd, toNats, value]
  | cons word words ih =>
    have hLength := length_mulAdd factor c words
    simp only [mulAdd, toNats, List.map_cons, List.length_cons]
    generalize mulAdd factor c words = rest at ih hLength ⊢
    obtain ⟨words', c'⟩ := rest
    have hStep := toNat_step hFactor word c'
    generalize word.setWidth (w + w) * factor + c'.setWidth (w + w) = t at hStep ⊢
    have hLow : (t.setWidth w).toNat = t.toNat % 2 ^ w := BitVec.toNat_setWidth ..
    have hHigh : ((t >>> w).setWidth w).toNat = t.toNat / 2 ^ w := by
      rw [BitVec.toNat_setWidth, BitVec.toNat_ushiftRight, Nat.shiftRight_eq_div_pow]
      refine Nat.mod_eq_of_lt (Nat.div_lt_of_lt_mul ?_)
      rw [← pow_add]
      exact t.isLt
    rw [value_cons, value_cons, hLow, hHigh, List.length_map, List.length_map, hLength, pow_succ]
    have hParts := Nat.mod_add_div t.toNat (2 ^ w)
    calc
      _ = (2 ^ w) ^ words.length * (t.toNat % 2 ^ w + 2 ^ w * (t.toNat / 2 ^ w)) +
          value (2 ^ w) (toNats words') := by rw [toNats]; ring
      _ = (2 ^ w) ^ words.length * (word.toNat * factor.toNat) +
          (value (2 ^ w) (toNats words') + (2 ^ w) ^ words.length * c'.toNat) := by
        rw [hParts, hStep]
        ring
      _ = _ := by
        rw [ih, toNats]
        ring

/-- The bits from `n` on are zero. -/
theorem and_mask_eq_zero_iff (word : BitVec w) (n : Nat) :
    word &&& (BitVec.allOnes w <<< n) = 0 ↔ word.toNat < 2 ^ n := by
  constructor
  · intro h
    refine Nat.lt_pow_two_of_testBit _ fun i hi => ?_
    have hBit := congrArg (fun v : BitVec w => v.getLsbD i) h
    by_cases hw : i < w
    · have hBit' : word.getLsbD i = false := by
        simpa [hw, Nat.not_lt_of_le hi] using hBit
      exact hBit'
    · exact BitVec.getLsbD_of_ge word i (Nat.le_of_not_lt hw)
  · intro h
    apply BitVec.eq_of_getLsbD_eq
    intro i hw
    by_cases hi : i < n
    · simp [hi]
    · have hBit : word.getLsbD i = false :=
        Nat.testBit_lt_two_pow (h.trans_le (Nat.pow_le_pow_right (by decide) (Nat.le_of_not_lt hi)))
      simp [hBit]

/-! ## Bytes -/

theorem length_bytesOf (word : BitVec w) (n : Nat) : (bytesOf word n).length = n := by
  induction n with
  | zero => rfl
  | succ n ih => rw [bytesOf, List.length_cons, ih]

theorem value_bytesOf (word : BitVec w) (n : Nat) :
    value 256 ((bytesOf word n).map BitVec.toNat) = word.toNat % 256 ^ n := by
  induction n with
  | zero => simp [bytesOf, value, Nat.mod_one]
  | succ n ih =>
    have hByte : ((word >>> (8 * n)).setWidth 8).toNat = word.toNat / 256 ^ n % 256 := by
      rw [BitVec.toNat_setWidth, BitVec.toNat_ushiftRight, Nat.shiftRight_eq_div_pow, pow_mul]
      norm_num
    rw [bytesOf, List.map_cons, value_cons, ih, List.length_map, length_bytesOf, hByte,
      Nat.add_comm, Nat.mod_pow_succ]

/-- Words of `k` bytes behind one that gives `n`. -/
theorem value_flatMap_bytesOf {k : Nat} (hk : 2 ^ w = 256 ^ k) (words : List (BitVec w)) :
    value 256 ((words.flatMap fun word => bytesOf word k).map BitVec.toNat) =
      value (2 ^ w) (toNats words) := by
  have hLength : ∀ words : List (BitVec w),
      (words.flatMap fun word => bytesOf word k).length = k * words.length := by
    intro words
    simp [List.length_flatMap, length_bytesOf, Nat.mul_comm]
  induction words with
  | nil => rfl
  | cons word words ih =>
    have hWord : word.toNat % 256 ^ k = word.toNat := Nat.mod_eq_of_lt (hk ▸ word.isLt)
    rw [List.flatMap_cons, List.map_append, value_append, ih, value_bytesOf, hWord,
      List.length_map, hLength, pow_mul, ← hk, toNats, toNats, List.map_cons, value_cons,
      List.length_map]

end Manhattan.Library.Limbs
