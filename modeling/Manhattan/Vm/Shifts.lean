import Manhattan.Vm.Rewrites

/-! # SHL, SHR and SAR

The shift is cut down to 32 bits, compared with 255 or 63 and then taken modulo 64. SHR
shifts the sign in like SAR, and SAR has INT64_MIN for a negative value whose shift is too
large.
-/

namespace Manhattan.Vm

open Library.ExecRules Library.WordReadings

theorem replaces_shl (v s : Word) :
    Replaces [0x1b] [v, s]
      [if s.toNat % 2 ^ 32 > 255 then 0 else v <<< (s.toNat % 64)] := by
  refine replaces_opcode (fun _ _ => rfl) (rewrites_lowTopCase fun m => ?_)
  rw [BitVec.toNat_setWidth, Nat.mod_mod_of_dvd s.toNat (by decide : 64 ∣ 2 ^ 32)]
  rfl

theorem replaces_shr (v s : Word) :
    Replaces [0x1c] [v, s]
      [if s.toNat % 2 ^ 32 > 255 then 0 else v.sshiftRight (s.toNat % 64)] := by
  refine replaces_opcode (fun _ _ => rfl) (rewrites_lowTopCase fun m => ?_)
  rw [BitVec.toNat_setWidth, Nat.mod_mod_of_dvd s.toNat (by decide : 64 ∣ 2 ^ 32)]
  rfl

theorem replaces_sar (v s : Word) :
    Replaces [0x1d] [v, s]
      [if s.toNat % 2 ^ 32 > 63 then if v.toInt < 0 then INT64_MIN else 0
        else v.sshiftRight (s.toNat % 2 ^ 32)] := by
  refine replaces_opcode (fun _ _ => rfl) (rewrites_lowTopCase fun m => ?_)
  rw [BitVec.toNat_setWidth]
  rfl

theorem shl_exact_iff (v s : Word) :
    Replaces [0x1b] [v, s] [BitVec.ofInt 64 (v.toInt * 2 ^ s.toNat)] ↔
      s.toNat < 64 ∨ 255 < s.toNat % 2 ^ 32 ∨ 2 ^ 64 ∣ v.toNat * 2 ^ (s.toNat % 64) := by
  rw [(replaces_shl v s).iff_eq, List.singleton_inj, ofInt_mul_two_pow]
  obtain hSmall | hLarge := Nat.lt_or_ge s.toNat 64
  · rw [if_neg (by omega), Nat.mod_eq_of_lt hSmall]
    exact iff_of_true rfl (.inl hSmall)
  · rw [BitVec.shiftLeft_eq_zero hLarge, or_iff_right (Nat.not_lt.mpr hLarge)]
    split
    · rename_i hCut
      exact iff_of_true rfl (.inl hCut)
    · rename_i hCut
      rw [or_iff_right hCut, eq_comm, shiftLeft_eq_zero_iff]

theorem shr_exact_iff (v s : Word) :
    Replaces [0x1c] [v, s] [BitVec.ofNat 64 (v.toNat / 2 ^ s.toNat)] ↔
      (s.toNat < 64 ∧ (s.toNat = 0 ∨ 0 ≤ v.toInt)) ∨
      (64 ≤ s.toNat ∧ (255 < s.toNat % 2 ^ 32 ∨
        (0 ≤ v.toInt ∧ v.toInt < 2 ^ (s.toNat % 64)))) := by
  rw [(replaces_shr v s).iff_eq, List.singleton_inj, ofNat_div_two_pow]
  obtain hSmall | hLarge := Nat.lt_or_ge s.toNat 64
  · rw [if_neg (by omega), Nat.mod_eq_of_lt hSmall, eq_comm, sshiftRight_eq_ushiftRight_iff]
    omega
  · rw [BitVec.ushiftRight_eq_zero hLarge, or_iff_right (by omega), and_iff_right hLarge]
    split
    · rename_i hCut
      exact iff_of_true rfl (.inl hCut)
    · rename_i hCut
      rw [or_iff_right hCut, eq_comm, sshiftRight_eq_iff]
      simp

/-- The two saturated values of an arithmetic shift by 64 or more against those of the case. -/
theorem sar_large_iff (v : Word) (k : Nat) :
    BitVec.ofInt 64 (if v.toInt < 0 then -1 else 0) =
        (if k > 63 then if v.toInt < 0 then INT64_MIN else 0 else v.sshiftRight k) ↔
      (63 < k ∧ 0 ≤ v.toInt) ∨ (k ≤ 63 ∧ -2 ^ k ≤ v.toInt ∧ v.toInt < 2 ^ k) := by
  have hPow : (0 : Int) < 2 ^ k := by positivity
  split
  · rename_i hNeg
    split
    · rename_i hCut
      -- INT64_MIN instead of -1
      refine iff_of_false (by decide) ?_
      omega
    · rename_i hCut
      rw [eq_comm, sshiftRight_eq_iff, show (BitVec.ofInt 64 (-1)).toInt = -1 by decide]
      omega
  · rename_i hNonneg
    split
    · rename_i hCut
      exact iff_of_true (by decide) (.inl ⟨hCut, by omega⟩)
    · rename_i hCut
      rw [eq_comm, sshiftRight_eq_iff, show (BitVec.ofInt 64 0).toInt = 0 by decide]
      omega

theorem sar_exact_iff (v s : Word) :
    Replaces [0x1d] [v, s] [BitVec.ofInt 64 (v.toInt / 2 ^ s.toNat)] ↔
      s.toNat < 64 ∨ (63 < s.toNat % 2 ^ 32 ∧ 0 ≤ v.toInt) ∨
      (s.toNat % 2 ^ 32 ≤ 63 ∧ -2 ^ (s.toNat % 2 ^ 32) ≤ v.toInt ∧
        v.toInt < 2 ^ (s.toNat % 2 ^ 32)) := by
  rw [(replaces_sar v s).iff_eq, List.singleton_inj]
  obtain hSmall | hLarge := Nat.lt_or_ge s.toNat 64
  · have hLow : s.toNat % 2 ^ 32 = s.toNat := Nat.mod_eq_of_lt (by omega)
    rw [hLow, if_neg (by omega), ofInt_div_two_pow]
    exact iff_of_true rfl (.inl hSmall)
  · rw [toInt_div_of_le v hLarge, or_iff_right (Nat.not_lt.mpr hLarge), sar_large_iff]

/-- For each of the three shifts the values and shift amounts that it is exact for. -/
theorem shifts_exact_iff (v s : Word) :
    (Replaces [0x1b] [v, s] [BitVec.ofInt 64 (v.toInt * 2 ^ s.toNat)] ↔
      s.toNat < 64 ∨ 255 < s.toNat % 2 ^ 32 ∨ 2 ^ 64 ∣ v.toNat * 2 ^ (s.toNat % 64)) ∧
    (Replaces [0x1c] [v, s] [BitVec.ofNat 64 (v.toNat / 2 ^ s.toNat)] ↔
      (s.toNat < 64 ∧ (s.toNat = 0 ∨ 0 ≤ v.toInt)) ∨
      (64 ≤ s.toNat ∧ (255 < s.toNat % 2 ^ 32 ∨
        (0 ≤ v.toInt ∧ v.toInt < 2 ^ (s.toNat % 64))))) ∧
    (Replaces [0x1d] [v, s] [BitVec.ofInt 64 (v.toInt / 2 ^ s.toNat)] ↔
      s.toNat < 64 ∨ (63 < s.toNat % 2 ^ 32 ∧ 0 ≤ v.toInt) ∨
      (s.toNat % 2 ^ 32 ≤ 63 ∧ -2 ^ (s.toNat % 2 ^ 32) ≤ v.toInt ∧
        v.toInt < 2 ^ (s.toNat % 2 ^ 32))) :=
  ⟨shl_exact_iff v s, shr_exact_iff v s, sar_exact_iff v s⟩

/-- 1 << 64 is 1, -1 >> 1 is -1 for SHR, and -1 >> 64 is INT64_MIN for SAR. -/
theorem shifts_not_exact :
    let shl : Bytecode := ⟨[0x60, 1, 0x60, 64, 0x1b], fun _ => 0⟩
    let shr : Bytecode := ⟨[0x60, 0, 0x19, 0x60, 1, 0x1c], fun _ => 0⟩
    let sar : Bytecode := ⟨[0x60, 0, 0x19, 0x60, 64, 0x1d], fun _ => 0⟩
    let s := stackCreate 4 (fun _ => 0) zeroMemory
    (final (executeFor shl 3 0 s.machine)).stack.items = [1] ∧
      (final (executeFor shr 4 0 s.machine)).stack.items = [-1] ∧
      (final (executeFor sar 4 0 s.machine)).stack.items = [INT64_MIN] := by
  decide +kernel

end Manhattan.Vm
