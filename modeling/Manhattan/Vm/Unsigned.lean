import Manhattan.Vm.Division

/-! # The unsigned opcodes

DIV, MOD, LT and GT are written on `int64_t` like SDIV, SMOD, SLT and SGT. They are unsigned
as far as the two readings of their operands lead to one result.
-/

namespace Manhattan.Vm

open Library.ExecRules Library.WordReadings

/-- The opcode p pushes u, the result of the unsigned reading, and differs from q exactly
where the signed reading has another result s. -/
structure ReadsUnsigned (p q : Byte) (a b u s : Word) : Prop where
  pushed : Replaces [p] [a, b] [u]
  differs : ¬Agree [p] [a, b] [q] [a, b] ↔ u ≠ s

theorem readsUnsigned_of {p q : Byte} {a b u : Word} (hp : Replaces [p] [a, b] [u])
    (hq : Replaces [q] [a, b] [u]) : ReadsUnsigned p q a b u u :=
  ⟨hp, iff_of_false (not_not.mpr ⟨_, hp, hq⟩) (not_not.mpr rfl)⟩

/-! ## DIV and MOD -/

theorem ofNat_udiv (a b : Word) : BitVec.ofNat 64 (a.toNat / b.toNat) = a / b := by
  rw [← BitVec.toNat_udiv, BitVec.ofNat_toNat, BitVec.setWidth_eq]

theorem ofNat_umod (a b : Word) : BitVec.ofNat 64 (a.toNat % b.toNat) = a % b := by
  rw [← BitVec.toNat_umod, BitVec.ofNat_toNat, BitVec.setWidth_eq]

theorem not_replaces_of_trap {opcode : Byte} {operation : Word → Word → VM Word} {a b : Word}
    {items : List Word}
    (hCase : ∀ code pc, executeCase code pc (decode opcode) = andBreak pc (arithmeticCase operation))
    (hTrap : ∀ m, operation a b m = .error .trap m) : ¬Replaces [opcode] [a, b] items := by
  refine not_replaces_of_stops (e := .trap) hCase fun capacity memory storage m h => ?_
  have hTop : m.Holds capacity ([] ++ [a, b]) memory storage := h
  exact arithmeticCase_stops hTrap hTop

theorem div_unsigned_iff {a b : Word} (hZero : b ≠ 0) :
    ReadsUnsigned 0x04 0x05 a b (BitVec.ofNat 64 (a.toNat / b.toNat))
        (BitVec.ofInt 64 (a.toInt.tdiv b.toInt)) ↔
      (0 ≤ a.toInt ∧ (0 < b.toInt ∨ a.toInt < -b.toInt)) ∨ (a.toInt < 0 ∧ b.toInt = 1) ∨
        a = b := by
  rw [ofNat_udiv]
  by_cases hTrap : a = INT64_MIN ∧ b = -1
  · obtain ⟨rfl, rfl⟩ := hTrap
    refine iff_of_false (fun h => ?_) (by decide)
    exact not_replaces_of_trap (fun _ _ => rfl) (fun _ => rfl) h.pushed
  · have hDivides : Divides a b := ⟨hZero, hTrap⟩
    rw [← BitVec.toInt_sdiv_of_ne_or_ne a b (not_and_or.mp hTrap), BitVec.ofInt_toInt,
      ← udiv_eq_sdiv_iff hZero]
    constructor
    · exact fun h => List.head_eq_of_cons_eq ((replaces_div hDivides).iff_eq.mp h.pushed)
    · intro hEq
      rw [hEq]
      exact readsUnsigned_of (replaces_div hDivides) (replaces_sdiv hDivides)

theorem mod_unsigned_iff {a b : Word} (hZero : b ≠ 0) :
    ReadsUnsigned 0x06 0x07 a b (BitVec.ofNat 64 (a.toNat % b.toNat))
        (BitVec.ofInt 64 (a.toInt.tmod b.toInt)) ↔
      (0 ≤ a.toInt ∧ (0 < b.toInt ∨ a.toInt < -b.toInt)) ∨
        (a.toInt < 0 ∧ 0 < b.toInt ∧ b.toInt ∣ a.toInt ∧ b.toInt ∣ 2 ^ 64) ∨ a = b := by
  rw [ofNat_umod]
  by_cases hTrap : a = INT64_MIN ∧ b = -1
  · obtain ⟨rfl, rfl⟩ := hTrap
    refine iff_of_false (fun h => ?_) (by decide)
    exact not_replaces_of_trap (fun _ _ => rfl) (fun _ => rfl) h.pushed
  · have hDivides : Divides a b := ⟨hZero, hTrap⟩
    have hSame := umod_eq_srem_iff (x := a) hZero
    rw [← BitVec.toInt_srem, BitVec.ofInt_toInt]
    refine Iff.trans ?_ hSame
    constructor
    · exact fun h => List.head_eq_of_cons_eq ((replaces_mod hDivides).iff_eq.mp h.pushed)
    · intro hEq
      -- where MOD is right SMOD does not take its correction
      have hPlain : ¬Negated a b := by
        rintro ⟨rfl, hPos, hDvd⟩
        have hMin : INT64_MIN.toInt = -2 ^ 63 := by decide
        obtain ⟨hNonneg, _⟩ | ⟨_, _, hDvd', _⟩ | rfl := hSame.mp hEq
        · omega
        · exact hDvd hDvd'
        · omega
      have hSmod := replaces_smod hDivides
      rw [if_neg hPlain] at hSmod
      rw [hEq]
      exact readsUnsigned_of (replaces_mod hDivides) hSmod

/-! ## LT and GT -/

theorem replaces_lt (a b : Word) :
    Replaces [0x10] [a, b] [ofBool (a.toInt < b.toInt % 2 ^ 32)] :=
  replaces_opcode (fun _ _ => rfl) (rewrites_less _ a b)

theorem replaces_gt (a b : Word) :
    Replaces [0x11] [a, b] [ofBool (a.toInt > b.toInt % 2 ^ 32)] :=
  replaces_opcode (fun _ _ => rfl) (rewrites_greater _ a b)

/-- Two comparisons that push the same have to be right in both readings. -/
theorem readsUnsigned_comparison {p q : Byte} {a b : Word} {c u s : Prop} [Decidable c]
    [Decidable u] [Decidable s] (hp : Replaces [p] [a, b] [ofBool c])
    (hq : Replaces [q] [a, b] [ofBool c]) :
    ReadsUnsigned p q a b (ofBool u) (ofBool s) ↔ (c ↔ u) ∧ (u ↔ s) := by
  have hAgree : Agree [p] [a, b] [q] [a, b] := ⟨_, hp, hq⟩
  have hSame : ofBool u = ofBool s ↔ (u ↔ s) := by rw [ofBool_eq_iff, decide_eq_decide]
  constructor
  · rintro ⟨hPushed, hDiffers⟩
    refine ⟨(pushed_iff hp).mp hPushed, hSame.mp ?_⟩
    by_contra hNe
    exact hDiffers.mpr hNe hAgree
  · rintro ⟨hPushed, hReadings⟩
    refine ⟨(pushed_iff hp).mpr hPushed, iff_of_false (not_not.mpr hAgree) ?_⟩
    exact not_not.mpr (hSame.mpr hReadings)

theorem lt_unsigned_iff (a b : Word) :
    ReadsUnsigned 0x10 0x12 a b (ofBool (a.toNat < b.toNat)) (ofBool (a.toInt < b.toInt)) ↔
      (a.toInt < 0 ∧ b.toInt < 0 ∧ a.toInt < b.toInt) ∨
        (0 ≤ a.toInt ∧ 0 ≤ b.toInt ∧ (a.toInt < b.toInt % 2 ^ 32 ∨ b.toInt ≤ a.toInt)) := by
  rw [readsUnsigned_comparison (replaces_lt a b) (replaces_slt a b)]
  have ha := BitVec.toInt_eq_toNat_cond a
  have hb := BitVec.toInt_eq_toNat_cond b
  have haLt := a.isLt
  have hbLt := b.isLt
  split at ha <;> split at hb <;> omega

theorem gt_unsigned_iff (a b : Word) :
    ReadsUnsigned 0x11 0x13 a b (ofBool (a.toNat > b.toNat)) (ofBool (a.toInt > b.toInt)) ↔
      (a.toInt < 0 ∧ b.toInt < 0 ∧ a.toInt ≤ b.toInt) ∨
        (0 ≤ a.toInt ∧ 0 ≤ b.toInt ∧ (a.toInt ≤ b.toInt % 2 ^ 32 ∨ b.toInt < a.toInt)) := by
  rw [readsUnsigned_comparison (replaces_gt a b) (replaces_sgt a b)]
  have ha := BitVec.toInt_eq_toNat_cond a
  have hb := BitVec.toInt_eq_toNat_cond b
  have haLt := a.isLt
  have hbLt := b.isLt
  split at ha <;> split at hb <;> omega

/-- For each unsigned opcode the operands on which it is unsigned. -/
theorem unsigned_readings_iff (a b : Word) :
    (b ≠ 0 →
      (ReadsUnsigned 0x04 0x05 a b (BitVec.ofNat 64 (a.toNat / b.toNat))
          (BitVec.ofInt 64 (a.toInt.tdiv b.toInt)) ↔
        (0 ≤ a.toInt ∧ (0 < b.toInt ∨ a.toInt < -b.toInt)) ∨ (a.toInt < 0 ∧ b.toInt = 1) ∨
          a = b) ∧
      (ReadsUnsigned 0x06 0x07 a b (BitVec.ofNat 64 (a.toNat % b.toNat))
          (BitVec.ofInt 64 (a.toInt.tmod b.toInt)) ↔
        (0 ≤ a.toInt ∧ (0 < b.toInt ∨ a.toInt < -b.toInt)) ∨
          (a.toInt < 0 ∧ 0 < b.toInt ∧ b.toInt ∣ a.toInt ∧ b.toInt ∣ 2 ^ 64) ∨ a = b)) ∧
    (ReadsUnsigned 0x10 0x12 a b (ofBool (a.toNat < b.toNat)) (ofBool (a.toInt < b.toInt)) ↔
      (a.toInt < 0 ∧ b.toInt < 0 ∧ a.toInt < b.toInt) ∨
        (0 ≤ a.toInt ∧ 0 ≤ b.toInt ∧ (a.toInt < b.toInt % 2 ^ 32 ∨ b.toInt ≤ a.toInt))) ∧
    (ReadsUnsigned 0x11 0x13 a b (ofBool (a.toNat > b.toNat)) (ofBool (a.toInt > b.toInt)) ↔
      (a.toInt < 0 ∧ b.toInt < 0 ∧ a.toInt ≤ b.toInt) ∨
        (0 ≤ a.toInt ∧ 0 ≤ b.toInt ∧ (a.toInt ≤ b.toInt % 2 ^ 32 ∨ b.toInt < a.toInt))) :=
  ⟨fun hZero => ⟨div_unsigned_iff hZero, mod_unsigned_iff hZero⟩, lt_unsigned_iff a b,
    gt_unsigned_iff a b⟩

/-- -1 over 2: DIV pushes 0 and MOD -1, and LT has -1 below 2. -/
theorem unsigned_readings_fail :
    let code (opcode : Byte) : Bytecode := ⟨[0x60, 0, 0x19, 0x60, 2, opcode], fun _ => 0⟩
    let s := stackCreate 4 (fun _ => 0) zeroMemory
    let pushed (opcode : Byte) := (final (executeFor (code opcode) 4 0 s.machine)).stack.items
    pushed 0x04 = [0] ∧ pushed 0x06 = [-1] ∧ pushed 0x10 = [1] ∧ pushed 0x11 = [0] ∧
      (-1 : Word).toNat / 2 = 2 ^ 63 - 1 ∧ (-1 : Word).toNat % 2 = 1 ∧ (-1 : Word).toNat > 2 := by
  decide +kernel

theorem unsigned_readings_iff_seven :
    ReadsUnsigned 0x04 0x05 7 2 3 3 ∧ ReadsUnsigned 0x10 0x12 7 2 0 0 := by
  obtain ⟨hDivision, hLess, _⟩ := unsigned_readings_iff 7 2
  exact ⟨(hDivision (by decide)).1.mpr (by decide), hLess.mpr (by decide)⟩

end Manhattan.Vm
