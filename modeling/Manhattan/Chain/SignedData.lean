import Manhattan.Chain.Transactions
import Manhattan.Library.FixedPoint

/-! # What the signed message commits to

The colons show where the addresses end. The amount is cut to the 19 characters that
`amount_str` has room for, which are all of its text up to ten digits before the point.
-/

namespace Manhattan.Chain

open Library.CStrings Library.Conversions Library.FixedPoint Library.Separated

/-- `amount` is `units` hundred-millionths, and is printed as exactly that. -/
def Amounts (amount : LongDouble) (units : Nat) : Prop := amount.print 8 = fixedPoint 8 units

instance (amount : LongDouble) (units : Nat) : Decidable (Amounts amount units) :=
  inferInstanceAs (Decidable (_ = _))

theorem roundHalfEven_exact {n d : Nat} (hd : 0 < d) : roundHalfEven (n * d) d = n := by
  rw [roundHalfEven, Nat.mul_mod_left, if_pos (by omega), Nat.mul_div_cancel _ hd]

/-- An amount that is a whole number of hundred-millionths is printed exactly. -/
theorem amounts_of_exact {significand : BitVec 64} {exponent : Fin 32766} {units : Nat}
    (h : significand.toNat * 2 ^ exponent.val * 10 ^ 8 = units * 2 ^ 16445) :
    Amounts (.finite false significand exponent) units := by
  rw [Amounts, LongDouble.print, h, roundHalfEven_exact (Nat.two_pow_pos _)]
  rfl

/-! ## What is left of an amount -/

def wholeDigits (units : Nat) : Nat := (decimalNat (units / 10 ^ 8)).length

/-- The last digits, for which there is no room. From 19 whole digits on there is none for the
point either. -/
def lostDigits (units : Nat) : Nat :=
  if wholeDigits units ≤ 18 then wholeDigits units - 10 else wholeDigits units - 11

/-- The digits that are kept are the same, and the point is in the same place or lost. -/
structure CutAlike (units units' : Nat) : Prop where
  digits : units / 10 ^ lostDigits units = units' / 10 ^ lostDigits units'
  point : wholeDigits units = wholeDigits units' ∨ 18 < wholeDigits units ∧ 18 < wholeDigits units'

theorem wholeDigits_of_kept (units : Nat) (h : lostDigits units ≤ 8) : wholeDigits units =
    (decimalNat (units / 10 ^ lostDigits units / 10 ^ (8 - lostDigits units))).length := by
  rw [Nat.div_div_eq_div_mul, ← Nat.pow_add, Nat.add_sub_cancel' h]
  rfl

theorem cut_small {units : Nat} (h : wholeDigits units ≤ 18) :
    (fixedPoint 8 units).take 19 = fixedPoint (8 - lostDigits units) (units / 10 ^ lostDigits units) := by
  have hLost : lostDigits units = wholeDigits units - 10 := if_pos h
  have hWhole := wholeDigits_of_kept units (by omega)
  have hLength := length_fixedPoint (8 - lostDigits units) (units / 10 ^ lostDigits units)
  rcases Nat.eq_zero_or_pos (lostDigits units) with hAll | hSome
  · rw [hAll, Nat.sub_zero, Nat.pow_zero, Nat.div_one] at hLength hWhole ⊢
    have hFits : (fixedPoint 8 units).length ≤ 19 := by omega
    exact CString.ext (List.take_of_length_le hFits)
  · have hSplit := fixedPoint_split (Nat.sub_le 8 (lostDigits units)) units
    have hBack : 8 - (8 - lostDigits units) = lostDigits units := by omega
    rw [hBack] at hSplit
    rw [hSplit]
    exact take_append_of_length (by omega)

theorem cut_large {units : Nat} (h : 18 < wholeDigits units) :
    (fixedPoint 8 units).take 19 = decimalNat (units / 10 ^ lostDigits units) := by
  let behind := wholeDigits units - 19
  have hLost : lostDigits units = 8 + behind := by
    rw [lostDigits, if_neg (by omega)]
    omega
  have hKept : units / 10 ^ 8 / 10 ^ behind ≠ 0 := by
    intro hZero
    have hBound : units / 10 ^ 8 < 10 ^ (behind + 1) :=
      (Nat.lt_of_div_eq_zero (Nat.pow_pos (by decide)) hZero).trans
        (Nat.pow_lt_pow_right (by decide) (Nat.lt_succ_self behind))
    have hLength : wholeDigits units ≤ behind + 1 := length_decimalNat_le (Nat.succ_pos _) hBound
    omega
  have hSplit := decimalNat_split behind hKept
  have hLength := congrArg CString.length hSplit
  rw [CString.length_append, length_decimals, Nat.div_div_eq_div_mul, ← Nat.pow_add, ← hLost] at hLength
  rw [Nat.div_div_eq_div_mul, ← Nat.pow_add, ← hLost] at hSplit
  have hWhole : (decimalNat (units / 10 ^ 8)).length = wholeDigits units := rfl
  rw [fixedPoint, hSplit, CString.append_assoc, CString.append_assoc]
  exact take_append_of_length (by omega)

theorem cut_eq_iff {units units' : Nat} :
    (fixedPoint 8 units).take 19 = (fixedPoint 8 units').take 19 ↔ CutAlike units units' := by
  have hPoint : ∀ k n m, fixedPoint k n ≠ decimalNat m := by
    intro k n m h
    have hMem : (46 : Byte) ∈ (decimalNat m).chars := by
      rw [← h, chars_fixedPoint]
      exact List.mem_append_right _ List.mem_cons_self
    exact point_not_mem_decimalNat m hMem
  rcases le_or_gt (wholeDigits units) 18 with h | h <;>
    rcases le_or_gt (wholeDigits units') 18 with h' | h'
  · rw [cut_small h, cut_small h']
    have hLost : lostDigits units = wholeDigits units - 10 := if_pos h
    have hLost' : lostDigits units' = wholeDigits units' - 10 := if_pos h'
    constructor
    · intro hText
      obtain ⟨hPlaces, hDigits⟩ := fixedPoint_inj hText
      refine ⟨hDigits, .inl ?_⟩
      rw [wholeDigits_of_kept units (by omega), wholeDigits_of_kept units' (by omega), hDigits,
        hPlaces]
    · rintro ⟨hDigits, hPlace | hPlace⟩
      · rw [hDigits, hLost, hLost', hPlace]
      · omega
  · rw [cut_small h, cut_large h']
    constructor
    · exact fun hText => absurd hText (hPoint _ _ _)
    · rintro ⟨_, hPlace⟩
      omega
  · rw [cut_large h, cut_small h']
    constructor
    · exact fun hText => absurd hText.symm (hPoint _ _ _)
    · rintro ⟨_, hPlace⟩
      omega
  · rw [cut_large h, cut_large h']
    constructor
    · intro hText
      exact ⟨decimalNat_injective hText, .inr ⟨h, h'⟩⟩
    · exact fun hAlike => congrArg decimalNat hAlike.digits

theorem CutAlike.eq_of_lt {units units' : Nat} (h : CutAlike units units')
    (hSmall : units < 10 ^ 18) : units = units' := by
  have hWhole : wholeDigits units ≤ 10 :=
    length_decimalNat_le (by decide) (Nat.div_lt_of_lt_mul hSmall)
  have hLost : ∀ {n}, wholeDigits n ≤ 10 → lostDigits n = 0 := by
    intro n hn
    rw [lostDigits, if_pos (by omega)]
    omega
  have hPoint := h.point
  have hDigits := h.digits
  rwa [hLost hWhole, hLost (by omega), Nat.pow_zero, Nat.div_one, Nat.div_one] at hDigits

/-! ## The message -/

theorem signedData_inj {sender sender' recipient recipient' : CString} {amount amount' : LongDouble}
    (hSender : colon ∉ sender.chars) (hSender' : colon ∉ sender'.chars)
    (hRecipient : colon ∉ recipient.chars) (hRecipient' : colon ∉ recipient'.chars) :
    signedData sender recipient amount = signedData sender' recipient' amount' ↔
      sender = sender' ∧ recipient = recipient' ∧
        (amount.print 8).take 19 = (amount'.print 8).take 19 := by
  constructor
  · intro h
    rw [signedData, signedData, List.append_assoc, List.append_assoc] at h
    obtain ⟨hFirst, hRest⟩ := head_inj hSender hSender' h
    obtain ⟨hSecond, hText⟩ := head_inj hRecipient hRecipient' hRest
    exact ⟨CString.ext hFirst, CString.ext hSecond, CString.ext hText⟩
  · rintro ⟨rfl, rfl, hText⟩
    rw [signedData, signedData, hText]

/-- Two payments have the same message only if they are equal, if and only if they are not two
amounts between the same addresses that are cut to the same characters. -/
theorem signedData_commits_iff (sender sender' recipient recipient' : CString)
    (hSender : colon ∉ sender.chars) (hSender' : colon ∉ sender'.chars)
    (hRecipient : colon ∉ recipient.chars) (hRecipient' : colon ∉ recipient'.chars)
    (amount amount' : LongDouble) (units units' : Nat) (hAmount : Amounts amount units)
    (hAmount' : Amounts amount' units') :
    (signedData sender recipient amount = signedData sender' recipient' amount' →
      sender = sender' ∧ recipient = recipient' ∧ units = units') ↔
    (sender = sender' → recipient = recipient' → CutAlike units units' → units = units') := by
  rw [signedData_inj hSender hSender' hRecipient hRecipient', hAmount, hAmount', cut_eq_iff]
  constructor
  · intro h hFirst hSecond hAlike
    exact (h ⟨hFirst, hSecond, hAlike⟩).2.2
  · rintro h ⟨hFirst, hSecond, hAlike⟩
    exact ⟨hFirst, hSecond, h hFirst hSecond hAlike⟩

def largeAmount (more : Fin 2) : LongDouble :=
  .finite false (BitVec.ofNat 64 (10 ^ 15 * 2 ^ 8 + more.val)) ⟨16437, by decide⟩

theorem amounts_large (more : Fin 2) : Amounts (largeAmount more) (10 ^ 23 + 390625 * more.val) := by
  revert more
  decide +kernel

theorem signedData_commits_iff_large :
    (signedData (.ascii "a") (.ascii "b") (largeAmount 0) =
        signedData (.ascii "a") (.ascii "b") (largeAmount 1) →
      CString.ascii "a" = .ascii "a" ∧ CString.ascii "b" = .ascii "b" ∧
        10 ^ 23 = 10 ^ 23 + 390625) ↔
    (CString.ascii "a" = .ascii "a" → CString.ascii "b" = .ascii "b" →
      CutAlike (10 ^ 23) (10 ^ 23 + 390625) → 10 ^ 23 = 10 ^ 23 + 390625) :=
  signedData_commits_iff (.ascii "a") (.ascii "a") (.ascii "b") (.ascii "b") (by decide) (by decide)
    (by decide) (by decide) (largeAmount 0) (largeAmount 1) (10 ^ 23) (10 ^ 23 + 390625)
    (amounts_large 0) (amounts_large 1)

/-- Both amounts go into the message as "1000000000000000.00". -/
theorem signedData_shared :
    signedData (.ascii "a") (.ascii "b") (largeAmount 0) =
        signedData (.ascii "a") (.ascii "b") (largeAmount 1) ∧
      Amounts (largeAmount 0) (10 ^ 23) ∧ Amounts (largeAmount 1) (10 ^ 23 + 390625) ∧
      10 ^ 23 ≠ 10 ^ 23 + 390625 := by
  decide +kernel

end Manhattan.Chain
