import Manhattan.Vm.Boundaries
import Manhattan.Vm.Rewrites

/-! # JUMPI and ISZERO

ISZERO tests all 64 bits of its operand, JUMPI the low 32 of its condition.
-/

namespace Manhattan.Vm

open Library.ExecRules

variable {code : Bytecode} {pc : Nat} {d c : Word}

/-- A destination that passes both checks of JUMP. -/
def ValidDestination (code : Bytecode) (d : Word) : Prop :=
  ¬outOfBounds d code.size ∧ code.read d.toNat = 0x5b

theorem ValidDestination.jumpTo (h : ValidDestination code d) : jumpTo code d = .inl d.toNat :=
  jumpTo_eq_inl.mpr ⟨h.1, h.2, rfl⟩

theorem rewrites_jump (code : Bytecode) (pc : Nat) (d : Word) :
    Rewrites (executeCase code pc .jump) [d] (jumpTo code d) [] :=
  (rewrites_stackPop d).bind (rewrites_pure [] _) (Nat.zero_le _)

theorem rewrites_jumpi (code : Bytecode) (pc : Nat) (d c : Word) :
    Rewrites (executeCase code pc .jumpi) [d, c]
      (if c.setWidth 32 ≠ (0 : BitVec 32) then jumpTo code d else .inl pc) [] := by
  refine ((rewrites_stackPop32 c).frame [d]).bind ?_ (by simp)
  exact (rewrites_stackPop d).bind (rewrites_pure [] _) (Nat.zero_le _)

theorem replaces_iszero (c : Word) : Replaces [0x15] [c] [ofBool (c = 0)] :=
  replaces_opcode (fun _ _ => rfl) (rewrites_unaryCase _ _ c)

theorem replaces_iszero_iszero (c : Word) : Replaces [0x15, 0x15] [c] [ofBool (c ≠ 0)] := by
  have hTwice := (replaces_iszero c).append (replaces_iszero _) (by simp)
  have hValue : ofBool (ofBool (c = 0) = 0) = ofBool (c ≠ 0) := by
    by_cases h : c = 0 <;> simp [h, ofBool]
  rwa [hValue] at hTwice

/-- JUMPI at `pc` sees of its condition only whether it is zero. -/
structure BranchesOnTruth (code : Bytecode) (pc : Nat) (d c : Word) : Prop where
  taken : Rewrites (cycle code pc) [d, c] (.inl (if c ≠ 0 then d.toNat else pc + 1)) []
  normalised : ∃ c', Replaces [0x15, 0x15] [c] [c'] ∧ ∀ control,
    Rewrites (cycle code pc) [d, c] control [] ↔ Rewrites (cycle code pc) [d, c'] control []
  jump : c ≠ 0 → ∀ control, Rewrites (cycle code pc) [d, c] control [] ↔
    Rewrites (executeCase code (pc + 1) .jump) [d] control []
  skip : c = 0 → Rewrites (cycle code pc) [d, c] (.inl (pc + 1)) []

theorem rewrites_cycle_jumpi (hFetch : code.bytes[pc]? = some 0x57)
    (hValid : ValidDestination code d) (c : Word) :
    Rewrites (cycle code pc) [d, c]
      (.inl (if c.setWidth 32 ≠ (0 : BitVec 32) then d.toNat else pc + 1)) [] := by
  have hCase := rewrites_jumpi code (pc + 1) d c
  rw [hValid.jumpTo, ← apply_ite Sum.inl] at hCase
  exact hCase.cycle hFetch

theorem low_ofBool (p : Bool) : (ofBool p).setWidth 32 ≠ (0 : BitVec 32) ↔ p = true := by
  cases p <;> decide

/-- JUMPI with a valid destination branches on the truth of its condition if and only if the
low half of the condition is zero only with the whole of it, or both ways lead to the same
place. -/
theorem branches_on_truth_iff (hFetch : code.bytes[pc]? = some 0x57)
    (hValid : ValidDestination code d) (c : Word) :
    BranchesOnTruth code pc d c ↔
      c = 0 ∨ c.setWidth 32 ≠ (0 : BitVec 32) ∨ d.toNat = pc + 1 := by
  have hRun := rewrites_cycle_jumpi hFetch hValid
  have hTarget : (if c ≠ 0 then d.toNat else pc + 1) =
      (if c.setWidth 32 ≠ (0 : BitVec 32) then d.toNat else pc + 1) ↔
      c = 0 ∨ c.setWidth 32 ≠ (0 : BitVec 32) ∨ d.toNat = pc + 1 := by
    by_cases hZero : c = 0
    · simp [hZero]
    · rw [if_pos hZero, or_iff_right hZero]
      by_cases hLow : c.setWidth 32 = (0 : BitVec 32)
      · rw [if_neg (not_not.mpr hLow), or_iff_right (not_not.mpr hLow)]
      · rw [if_pos hLow]
        exact iff_of_true rfl (.inl hLow)
  rw [← hTarget]
  constructor
  · intro h
    have hSame := ((hRun c).iff_value _).mp h.taken
    exact Sum.inl.inj hSame
  · intro hSame
    have hTaken : Rewrites (cycle code pc) [d, c] (.inl (if c ≠ 0 then d.toNat else pc + 1)) [] := by
      rw [hSame]
      exact hRun c
    refine ⟨hTaken, ⟨_, replaces_iszero_iszero c, fun control => ?_⟩, fun hTrue control => ?_,
      fun hZero => ?_⟩
    · rw [hTaken.iff_value, (hRun _).iff_value]
      simp only [low_ofBool, decide_eq_true_iff]
    · rw [hTaken.iff_value, (rewrites_jump code (pc + 1) d).iff_value, hValid.jumpTo, if_pos hTrue]
    · rwa [if_neg (not_not.mpr hZero)] at hTaken

/-- The condition 2^32, made by PUSH1 1, PUSH1 32, SHL: JUMPI goes on behind itself, and
after two ISZERO it jumps. -/
theorem branches_not_on_truth :
    let code : Bytecode := ⟨[0x60, 9, 0x60, 1, 0x60, 32, 0x1b, 0x57, 0, 0x5b], fun _ => 0⟩
    let code' : Bytecode :=
      ⟨[0x60, 11, 0x60, 1, 0x60, 32, 0x1b, 0x15, 0x15, 0x57, 0, 0x5b], fun _ => 0⟩
    let s := stackCreate 4 (fun _ => 0) zeroMemory
    (final (executeFor code 4 0 s.machine)).stack.items = [9, 2 ^ 32] ∧
      outcome (executeFor code 5 0 s.machine) = .ok (.inl 8) ∧
      (final (executeFor code' 6 0 s.machine)).stack.items = [11, 1] ∧
      outcome (executeFor code' 7 0 s.machine) = .ok (.inl 11) := by
  decide +kernel

theorem branches_on_truth_iff_one :
    BranchesOnTruth ⟨[0x57, 0, 0x5b], fun _ => 0⟩ 0 2 1 :=
  (branches_on_truth_iff rfl ⟨by decide, by decide⟩ 1).mpr (.inr (.inl (by decide)))

end Manhattan.Vm
