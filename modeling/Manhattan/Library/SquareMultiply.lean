import Mathlib

/-! # Square and multiply with checks

The loop that raises to a power bit by bit, from the lowest bit on, and gives up when a check of
the new product or of the new square fails. The values it checks are powers of the base, so the
loop is described without running it.
-/

namespace Manhattan.Library.SquareMultiply

variable {M : Type*} [Monoid M] (badProduct : M → M → Prop) (badSquare : M → Prop)

/-- A check fails at bit `k`, in a loop that starts with the product `r`. -/
def FailsAt (e : Nat) (a r : M) (k : Nat) : Prop :=
  (e.testBit k ∧ badProduct (r * a ^ (e % 2 ^ (k + 1))) (a ^ 2 ^ k)) ∨ badSquare (a ^ 2 ^ (k + 1))

theorem pow_mod_two (r a : M) (e : Nat) :
    (if e % 2 = 1 then r * a else r) = r * a ^ (e % 2) := by
  rcases Nat.mod_two_eq_zero_or_one e with h | h <;> simp [h]

theorem mul_self_pow (a : M) (n : Nat) : (a * a) ^ n = a ^ (2 * n) := by
  rw [pow_mul, sq]

theorem failsAt_zero (e : Nat) (a r : M) :
    FailsAt badProduct badSquare e a r 0 ↔
      (e % 2 = 1 ∧ badProduct (if e % 2 = 1 then r * a else r) a) ∨ badSquare (a * a) := by
  simp [FailsAt, pow_mod_two, sq]

theorem failsAt_succ (e : Nat) (a r : M) (k : Nat) :
    FailsAt badProduct badSquare e a r (k + 1) ↔
      FailsAt badProduct badSquare (e / 2) (a * a) (if e % 2 = 1 then r * a else r) k := by
  have hProduct : r * a ^ (e % 2 ^ (k + 1 + 1)) =
      r * a ^ (e % 2) * (a * a) ^ (e / 2 % 2 ^ (k + 1)) := by
    rw [mul_self_pow, mul_assoc, ← pow_add, pow_succ' 2 (k + 1), Nat.mod_mul]
  have hSquare : ∀ n, (a * a) ^ 2 ^ n = a ^ 2 ^ (n + 1) := by
    intro n
    rw [mul_self_pow, ← pow_succ']
  rw [FailsAt, FailsAt, pow_mod_two, hProduct, hSquare, hSquare, Nat.testBit_succ]

theorem size_of_ne_zero {e : Nat} (h : e ≠ 0) : e.size = (e / 2).size + 1 := by
  have hBit : Nat.bit (e.testBit 0) (e / 2) = e := Nat.bit_testBit_zero_shiftRight_one e
  have hSize := Nat.size_bit (hBit.symm ▸ h)
  rwa [hBit] at hSize

variable [DecidableRel badProduct] [DecidablePred badSquare]

instance (e : Nat) (a r : M) (k : Nat) : Decidable (FailsAt badProduct badSquare e a r k) :=
  inferInstanceAs (Decidable (_ ∨ _))

def power (e : Nat) (a r : M) : Option M :=
  if e = 0 then some r
  else if e % 2 = 1 ∧ badProduct (if e % 2 = 1 then r * a else r) a then none
  else if badSquare (a * a) then none
  else power (e / 2) (a * a) (if e % 2 = 1 then r * a else r)

theorem power_eq (e : Nat) (a r : M) :
    power badProduct badSquare e a r =
      if ∃ k < e.size, FailsAt badProduct badSquare e a r k then none else some (r * a ^ e) := by
  induction e using Nat.strongRecOn generalizing a r with
  | ind e ih =>
    rcases eq_or_ne e 0 with rfl | hPos
    · simp [power]
    · have hSplit : (∃ k < e.size, FailsAt badProduct badSquare e a r k) ↔
          FailsAt badProduct badSquare e a r 0 ∨ ∃ k < (e / 2).size,
            FailsAt badProduct badSquare (e / 2) (a * a) (if e % 2 = 1 then r * a else r) k := by
        rw [size_of_ne_zero hPos]
        simp only [← failsAt_succ]
        exact Nat.exists_lt_succ_left
      have hResult : (if e % 2 = 1 then r * a else r) * (a * a) ^ (e / 2) = r * a ^ e := by
        rw [pow_mod_two, mul_self_pow, mul_assoc, ← pow_add, Nat.mod_add_div]
      rw [power, if_neg hPos, ih (e / 2) (Nat.div_lt_self (Nat.pos_of_ne_zero hPos) Nat.one_lt_two),
        hResult]
      simp only [hSplit, failsAt_zero, ite_or]

end Manhattan.Library.SquareMultiply
