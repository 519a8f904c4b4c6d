import Mathlib

/-! # Numbers in an array of digits

The digits of a number lie in an array, the most significant first. The number is multiplied by a
factor and a carry is added, in place and from the last digit on; the loop leaves out the zeros in
front that no carry has reached. Repeated for the digits of a number to the base of the factor, it
converts from one base to the other.
-/

namespace Manhattan.Library.Positional

def value (base : Nat) (digits : List Nat) : Nat := Nat.ofDigits base digits.reverse

variable {base factor : Nat}

theorem value_concat (digits : List Nat) (d : Nat) :
    value base (digits ++ [d]) = base * value base digits + d := by
  rw [value, List.reverse_append, List.reverse_singleton, List.singleton_append, Nat.ofDigits_cons,
    value, Nat.add_comm]

theorem value_append (left right : List Nat) :
    value base (left ++ right) = base ^ right.length * value base left + value base right := by
  rw [value, List.reverse_append, Nat.ofDigits_append, List.length_reverse, value, value,
    Nat.add_comm]

theorem value_replicate (n : Nat) : value base (List.replicate n 0) = 0 := by
  rw [value, List.reverse_replicate, Nat.ofDigits_replicate_zero]

theorem value_lt {digits : List Nat} (hBase : 1 < base) (hDigits : ∀ d ∈ digits, d < base) :
    value base digits < base ^ digits.length := by
  rw [← List.length_reverse]
  exact Nat.ofDigits_lt_base_pow_length hBase fun d hd => hDigits d (List.mem_reverse.mp hd)

theorem le_value_cons (d : Nat) (digits : List Nat) :
    base ^ digits.length * d ≤ value base (d :: digits) := by
  rw [← List.singleton_append, value_append]
  have hHead : value base [d] = d := Nat.ofDigits_singleton
  rw [hHead]
  exact Nat.le_add_right _ _

theorem replicate_append_dropWhile {α : Type*} [DecidableEq α] (a : α) (l : List α) :
    List.replicate (l.takeWhile (· = a)).length a ++ l.dropWhile (· = a) = l := by
  have hSame : l.takeWhile (· = a) = List.replicate (l.takeWhile (· = a)).length a := by
    refine List.eq_replicate_of_mem ?_
    intro b hb
    simpa using List.mem_takeWhile_imp hb
  rw [← hSame, List.takeWhile_append_dropWhile]

theorem dropWhile_eq_digits {digits : List Nat} (hBase : 1 < base)
    (hDigits : ∀ d ∈ digits, d < base) :
    digits.dropWhile (· = 0) = (Nat.digits base (value base digits)).reverse := by
  have hValue : value base digits = value base (digits.dropWhile (· = 0)) := by
    conv => lhs; rw [← replicate_append_dropWhile 0 digits]
    rw [value_append, value_replicate, Nat.mul_zero, Nat.zero_add]
  have hLeading : ∀ h : (digits.dropWhile (· = 0)).reverse ≠ [],
      (digits.dropWhile (· = 0)).reverse.getLast h ≠ 0 := by
    intro h
    rw [List.getLast_reverse]
    simpa using List.head_dropWhile_not (fun d => decide (d = 0)) (List.reverse_ne_nil_iff.mp h)
  rw [hValue, value, Nat.digits_ofDigits base hBase _ ?_ hLeading, List.reverse_reverse]
  intro d hd
  exact hDigits d ((List.dropWhile_sublist _).subset (List.mem_reverse.mp hd))

/-! ## Multiply and add -/

/-- `for (; j > high || carry; --j)`, which also ends behind `j = 0`: the array and the last `j`. -/
def mulAdd (base factor high : Nat) : Nat → Nat → List Nat → List Nat × Nat
  | 0, carry, buf =>
    if carry ≠ 0 then (buf.set 0 ((carry + factor * buf.getD 0 0) % base), 0) else (buf, 0)
  | j + 1, carry, buf =>
    if high < j + 1 ∨ carry ≠ 0 then
      let sum := carry + factor * buf.getD (j + 1) 0
      mulAdd base factor high j (sum / base) (buf.set (j + 1) (sum % base))
    else (buf, j + 1)

/-- What the loop makes of the digits up to `j`; `lost` has run over the first. -/
structure Multiplied (base factor j carry : Nat) (buf buf' : List Nat) (stop : Nat) : Prop where
  length : buf'.length = buf.length
  digits : ∀ d ∈ buf', d < base
  behind : buf'.drop (j + 1) = buf.drop (j + 1)
  value : ∃ lost, value base (buf'.take (j + 1)) + base ^ (j + 1) * lost =
    factor * value base (buf.take (j + 1)) + carry
  zeros : ∀ i, 0 < i → i ≤ stop → buf'.getD i 0 = 0

theorem value_take_zeros {buf : List Nat} {j : Nat} (hZeros : ∀ i ≤ j, buf.getD i 0 = 0) :
    value base (buf.take (j + 1)) = 0 := by
  have hTake : buf.take (j + 1) = List.replicate (buf.take (j + 1)).length 0 := by
    refine List.eq_replicate_of_mem ?_
    intro d hd
    obtain ⟨i, hi, rfl⟩ := List.mem_iff_getElem.mp hd
    rw [List.length_take] at hi
    have hZero := hZeros i (by omega)
    rwa [List.getD_eq_getElem?_getD, List.getElem?_eq_getElem (by omega), Option.getD_some,
      ← List.getElem_take (h := by rw [List.length_take]; omega)] at hZero
  rw [hTake, value_replicate]

theorem multiplied_zeros {buf : List Nat} {j : Nat} (hDigits : ∀ d ∈ buf, d < base)
    (hZeros : ∀ i ≤ j, buf.getD i 0 = 0) : Multiplied base factor j 0 buf buf j where
  length := rfl
  digits := hDigits
  behind := rfl
  value := ⟨0, by rw [value_take_zeros hZeros]; omega⟩
  zeros i _ hi := hZeros i hi

theorem digits_set {buf : List Nat} (hDigits : ∀ d ∈ buf, d < base) (hBase : 0 < base)
    (j sum : Nat) : ∀ d ∈ buf.set j (sum % base), d < base := by
  intro d hd
  obtain hOld | rfl := List.mem_or_eq_of_mem_set hd
  · exact hDigits d hOld
  · exact Nat.mod_lt sum hBase

theorem take_succ_set {buf : List Nat} {j : Nat} (hj : j < buf.length) (d : Nat) :
    (buf.set j d).take (j + 1) = buf.take j ++ [d] := by
  have hSet : j < (buf.set j d).length := by rwa [List.length_set]
  rw [List.take_succ_eq_append_getElem hSet, List.getElem_set_self,
    List.take_set_of_le (Nat.le_refl j)]

theorem take_succ_getD {buf : List Nat} {j : Nat} (hj : j < buf.length) :
    buf.take (j + 1) = buf.take j ++ [buf.getD j 0] := by
  rw [List.take_succ_eq_append_getElem hj, List.getD_eq_getElem?_getD,
    List.getElem?_eq_getElem hj, Option.getD_some]

theorem mulAdd_spec {high j carry : Nat} {buf : List Nat} (hBase : 0 < base) (hj : j < buf.length)
    (hDigits : ∀ d ∈ buf, d < base) (hZeros : ∀ i ≤ high, i ≤ j → buf.getD i 0 = 0) :
    Multiplied base factor j carry buf (mulAdd base factor high j carry buf).1
      (mulAdd base factor high j carry buf).2 := by
  induction j generalizing carry buf with
  | zero =>
    rw [mulAdd]
    split
    · refine ⟨List.length_set, digits_set hDigits hBase _ _, ?_, ?_, ?_⟩
      · exact List.drop_set_of_lt Nat.zero_lt_one
      · refine ⟨(carry + factor * buf.getD 0 0) / base, ?_⟩
        rw [take_succ_set hj, take_succ_getD hj, List.take_zero, value_concat, value_concat,
          pow_one]
        have hSum := Nat.mod_add_div (carry + factor * buf.getD 0 0) base
        simp only [value, List.reverse_nil, Nat.ofDigits_nil, Nat.mul_zero, Nat.zero_add]
        omega
      · intro i hPos hi
        omega
    · rename_i hCarry
      obtain rfl : carry = 0 := not_not.mp hCarry
      refine multiplied_zeros hDigits ?_
      intro i hi
      exact hZeros i (by omega) hi
  | succ j ih =>
    rw [mulAdd]
    split
    · let sum := carry + factor * buf.getD (j + 1) 0
      have hLength : (buf.set (j + 1) (sum % base)).length = buf.length := List.length_set
      have hRest := @ih (sum / base) (buf.set (j + 1) (sum % base)) (hLength.symm ▸ Nat.lt_of_succ_lt hj)
        (digits_set hDigits hBase (j + 1) sum) (by
          intro i hHigh hi
          rw [List.getD_eq_getElem?_getD, List.getElem?_set_ne (by omega),
            ← List.getD_eq_getElem?_getD]
          exact hZeros i hHigh (Nat.le_succ_of_le hi))
      generalize mulAdd base factor high j (sum / base) (buf.set (j + 1) (sum % base)) = result
        at hRest
      obtain ⟨lost, hValue⟩ := hRest.value
      have hj' : j + 1 < result.1.length := by
        rw [hRest.length, hLength]
        exact hj
      have hDigit : result.1.getD (j + 1) 0 = sum % base := by
        have hHead := congrArg (fun digits => digits[0]?) hRest.behind
        simp only [List.getElem?_drop, Nat.add_zero, List.getElem?_set_self hj] at hHead
        rw [List.getD_eq_getElem?_getD, hHead, Option.getD_some]
      refine ⟨hRest.length.trans hLength, hRest.digits, ?_, ⟨lost, ?_⟩, hRest.zeros⟩
      · have hBehind := congrArg (List.drop 1) hRest.behind
        rw [List.drop_drop, List.drop_drop] at hBehind
        exact hBehind.trans (List.drop_set_of_lt (Nat.lt_succ_self _))
      · rw [List.take_set_of_le (Nat.le_refl _)] at hValue
        rw [take_succ_getD hj', hDigit, take_succ_getD hj, value_concat, value_concat, pow_succ]
        have hSum : sum % base + base * (sum / base) = carry + factor * buf.getD (j + 1) 0 :=
          Nat.mod_add_div sum base
        calc
          _ = base * (value base (result.1.take (j + 1)) + base ^ (j + 1) * lost) +
              sum % base := by ring
          _ = base * (factor * value base (buf.take (j + 1))) +
              (sum % base + base * (sum / base)) := by rw [hValue]; ring
          _ = _ := by rw [hSum]; ring
    · rename_i hStop
      obtain ⟨hHigh, hCarry⟩ := not_or.mp hStop
      obtain rfl : carry = 0 := not_not.mp hCarry
      refine multiplied_zeros hDigits ?_
      intro i hi
      exact hZeros i (by omega) hi

/-! ## Converting -/

/-- One digit more of the number that is converted. -/
def convertStep (base factor last : Nat) (state : List Nat × Nat) (digit : Nat) : List Nat × Nat :=
  mulAdd base factor state.2 last digit state.1

/-- The array holds `n`, and the digits up to the second component are zeros as long as the first
digit is not needed. -/
structure Holds (base last n : Nat) (state : List Nat × Nat) : Prop where
  length : state.1.length = last + 1
  digits : ∀ d ∈ state.1, d < base
  value : value base state.1 = n
  zeros : n < base ^ last → ∀ i ≤ state.2, state.1.getD i 0 = 0

theorem holds_zeros (hBase : 0 < base) (last : Nat) :
    Holds base last 0 (List.replicate (last + 1) 0, last) where
  length := List.length_replicate
  digits d hd := by
    rw [List.eq_of_mem_replicate hd]
    exact hBase
  value := value_replicate _
  zeros _ i hi := by simp

theorem Holds.step {last n digit : Nat} {state : List Nat × Nat} (h : Holds base last n state)
    (hBase : 1 < base) (hRoom : n < base ^ last) (hNext : factor * n + digit < base ^ (last + 1)) :
    Holds base last (factor * n + digit) (convertStep base factor last state digit) := by
  have hPos : 0 < base := Nat.zero_lt_of_lt hBase
  have hInside : last < state.1.length := by
    rw [h.length]
    exact Nat.lt_succ_self last
  have hSpec : Multiplied base factor last digit state.1
      (mulAdd base factor state.2 last digit state.1).1
      (mulAdd base factor state.2 last digit state.1).2 :=
    mulAdd_spec hPos hInside h.digits fun i hi _ => h.zeros hRoom i hi
  change Holds base last _ (mulAdd base factor state.2 last digit state.1)
  generalize mulAdd base factor state.2 last digit state.1 = next at hSpec ⊢
  have hLength : next.1.length = last + 1 := hSpec.length.trans h.length
  obtain ⟨lost, hValue⟩ := hSpec.value
  rw [List.take_of_length_le hLength.le, List.take_of_length_le h.length.le, h.value] at hValue
  -- what is lost would not have fitted
  have hLost : lost = 0 := by
    by_contra hLost
    have hMany : base ^ (last + 1) ≤ base ^ (last + 1) * lost :=
      Nat.le_mul_of_pos_right _ (Nat.pos_of_ne_zero hLost)
    omega
  rw [hLost, Nat.mul_zero, Nat.add_zero] at hValue
  refine ⟨hLength, hSpec.digits, hValue, ?_⟩
  intro hSmall i hi
  obtain rfl | hPositive := Nat.eq_zero_or_pos i
  · obtain ⟨head, rest, hNextDigits⟩ := List.exists_cons_of_length_eq_add_one hLength
    rw [hNextDigits] at hValue hLength ⊢
    have hLeast : base ^ rest.length * head ≤ Positional.value base (head :: rest) :=
      le_value_cons head rest
    rw [hValue, Nat.succ.inj hLength] at hLeast
    by_contra hHead
    have hMany : base ^ last ≤ base ^ last * head :=
      Nat.le_mul_of_pos_right _ (Nat.pos_of_ne_zero hHead)
    omega
  · exact hSpec.zeros i hPositive hi

theorem holds_foldl {last : Nat} {digits : List Nat} (hBase : 1 < base) (hFactor : 1 < factor)
    (hDigits : ∀ d ∈ digits, d < factor) (hRoom : factor ^ (digits.length - 1) ≤ base ^ last)
    (hFits : factor ^ digits.length ≤ base ^ (last + 1)) :
    Holds base last (value factor digits)
      (digits.foldl (convertStep base factor last) (List.replicate (last + 1) 0, last)) := by
  induction digits using List.reverseRecOn with
  | nil => exact holds_zeros (Nat.zero_lt_of_lt hBase) last
  | append_singleton digits digit ih =>
    have hValue := value_lt hFactor hDigits
    have hFront := value_lt hFactor fun d hd => hDigits d (List.mem_append_left _ hd)
    rw [List.length_append, List.length_singleton, Nat.add_sub_cancel] at hRoom
    rw [List.foldl_append, List.foldl_cons, List.foldl_nil, value_concat]
    rw [value_concat] at hValue
    refine Holds.step (ih (fun d hd => hDigits d (List.mem_append_left _ hd)) ?_ ?_) hBase
      (hFront.trans_le hRoom) (hValue.trans_le hFits)
    · exact (Nat.pow_le_pow_right (Nat.zero_lt_of_lt hFactor) (Nat.sub_le _ 1)).trans hRoom
    · exact hRoom.trans (Nat.pow_le_pow_right (Nat.zero_lt_of_lt hBase) (Nat.le_succ last))

end Manhattan.Library.Positional
