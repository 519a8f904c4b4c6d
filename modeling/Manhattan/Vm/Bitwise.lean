import Manhattan.Vm.DupSwap

/-! # AND, OR, XOR and NOT

The three binary cases pop the deeper operand into the `uint32_t b`: its upper half is
taken to be zero. A law of the bitwise operations therefore holds of the opcodes as far as
that half does not matter.
-/

namespace Manhattan.Vm

open Library.ExecRules

/-! ## The halves of a word -/

def high (v : Word) : BitVec 32 := v.extractLsb' 32 32

theorem word_eq_iff (x y : Word) : x = y ↔ high x = high y ∧ x.setWidth 32 = y.setWidth 32 := by
  constructor
  · rintro rfl
    exact ⟨rfl, rfl⟩
  · rintro ⟨hHigh, hLow⟩
    have hHighNat := congrArg BitVec.toNat hHigh
    have hLowNat := congrArg BitVec.toNat hLow
    simp only [high, BitVec.extractLsb'_toNat, BitVec.toNat_setWidth,
      Nat.shiftRight_eq_div_pow] at hHighNat hLowNat
    exact BitVec.eq_of_toNat_eq (by omega)

@[simp] theorem high_and (x y : Word) : high (x &&& y) = high x &&& high y :=
  BitVec.extractLsb'_and

@[simp] theorem high_or (x y : Word) : high (x ||| y) = high x ||| high y := BitVec.extractLsb'_or

@[simp] theorem high_xor (x y : Word) : high (x ^^^ y) = high x ^^^ high y :=
  BitVec.extractLsb'_xor

@[simp] theorem high_not (x : Word) : high (~~~x) = ~~~high x := by
  ext i hi
  simp [high]
  omega

@[simp] theorem high_zero : high 0#64 = 0#32 := rfl

@[simp] theorem high_low (x : Word) : high (low x) = 0 := by
  ext i hi
  simp [high, low]

@[simp] theorem setWidth_low (x : Word) : (low x).setWidth 32 = x.setWidth 32 := by
  simp [low]

/-! ## One turn -/

theorem replaces_and (x y : Word) : Replaces [0x16] [x, y] [y &&& low x] :=
  replaces_opcode (fun _ _ => rfl) (rewrites_lowSecondCase _ _ x y)

theorem replaces_or (x y : Word) : Replaces [0x17] [x, y] [y ||| low x] :=
  replaces_opcode (fun _ _ => rfl) (rewrites_lowSecondCase _ _ x y)

theorem replaces_xor (x y : Word) : Replaces [0x18] [x, y] [y ^^^ low x] :=
  replaces_opcode (fun _ _ => rfl) (rewrites_lowSecondCase _ _ x y)

theorem replaces_not (x : Word) : Replaces [0x19] [x] [~~~x] :=
  replaces_opcode (fun _ _ => rfl) (rewrites_unaryCase _ _ x)

theorem replaces_swap1 (x y : Word) : Replaces [0x90] [x, y] [y, x] :=
  replaces_swap (n := 1) (by decide) rfl

/-- NOT, SWAP1, NOT, SWAP1: both operands complemented in their places -/
def notBoth : List Byte := [0x19] ++ [0x90] ++ [0x19] ++ [0x90]

theorem replaces_notBoth (x y : Word) : Replaces notBoth [x, y] [~~~x, ~~~y] := by
  have hFirst : Replaces [0x19] [x, y] [x, ~~~y] := (replaces_not y).frame [x]
  have hSecond : Replaces [0x19] [~~~y, x] [~~~y, ~~~x] := (replaces_not x).frame [~~~y]
  have hTwo := hFirst.append (replaces_swap1 x (~~~y)) (by simp)
  have hThree := hTwo.append hSecond (by simp)
  exact hThree.append (replaces_swap1 (~~~y) (~~~x)) (by simp)

/-! ## The laws -/

theorem singleton_eq_iff (x y : Word) :
    [x] = [y] ↔ high x = high y ∧ x.setWidth 32 = y.setWidth 32 := by
  rw [List.singleton_inj, word_eq_iff]

theorem bitwise_values_iff (x y : Word) :
    (Replaces [0x16] [x, y] [x &&& y] ↔ high (x &&& y) = 0) ∧
      (Replaces [0x17] [x, y] [x ||| y] ↔ high (x ||| y) = high y) ∧
      (Replaces [0x18] [x, y] [x ^^^ y] ↔ high x = 0) := by
  refine ⟨?_, ?_, ?_⟩
  · rw [(replaces_and x y).iff_eq, singleton_eq_iff]
    simp [BitVec.and_comm]
  · rw [(replaces_or x y).iff_eq, singleton_eq_iff]
    simp [BitVec.or_comm]
  · rw [(replaces_xor x y).iff_eq, singleton_eq_iff]
    simp [BitVec.xor_comm]

theorem bitwise_comm_iff (x y : Word) :
    Agree [0x16] [x, y] [0x16] [y, x] ∧
      (Agree [0x17] [x, y] [0x17] [y, x] ↔ high x = high y) ∧
      (Agree [0x18] [x, y] [0x18] [y, x] ↔ high x = high y) := by
  refine ⟨?_, ?_, ?_⟩
  · rw [agree_iff (replaces_and x y) (replaces_and y x), singleton_eq_iff]
    simp [BitVec.and_comm]
  · rw [agree_iff (replaces_or x y) (replaces_or y x), singleton_eq_iff]
    simp [BitVec.or_comm, eq_comm]
  · rw [agree_iff (replaces_xor x y) (replaces_xor y x), singleton_eq_iff]
    simp [BitVec.xor_comm, eq_comm]

theorem bitwise_self_iff (x : Word) :
    (Replaces [0x16] [x, x] [x] ↔ high x = 0) ∧ Replaces [0x17] [x, x] [x] ∧
      (Replaces [0x18] [x, x] [0] ↔ high x = 0) := by
  refine ⟨?_, ?_, ?_⟩
  · rw [(replaces_and x x).iff_eq, singleton_eq_iff]
    simp
  · rw [(replaces_or x x).iff_eq, singleton_eq_iff]
    simp
  · rw [(replaces_xor x x).iff_eq, singleton_eq_iff]
    simp [eq_comm]

theorem not_or_ones_iff (h : BitVec 32) : ~~~h ||| 4294967295#32 = ~~~h ↔ h = 0#32 := by
  rw [show 4294967295#32 = BitVec.allOnes 32 from rfl, BitVec.or_allOnes, eq_comm,
    BitVec.not_eq_comm, BitVec.not_allOnes, eq_comm]

theorem not_and_ones_iff (h : BitVec 32) : ~~~h &&& 4294967295#32 = 0#32 ↔ h = 4294967295#32 := by
  rw [show 4294967295#32 = BitVec.allOnes 32 from rfl, BitVec.and_allOnes, BitVec.not_eq_comm,
    BitVec.not_zero, eq_comm]

theorem de_morgan_iff (x y : Word) :
    (Agree [0x16, 0x19] [x, y] (notBoth ++ [0x17]) [x, y] ↔ high y = 0) ∧
      (Agree [0x17, 0x19] [x, y] (notBoth ++ [0x16]) [x, y] ↔ high y = BitVec.allOnes 32) := by
  have hBoth := replaces_notBoth x y
  constructor
  · have hLeft := (replaces_and x y).append (replaces_not _) (by simp)
    have hRight := hBoth.append (replaces_or _ _) (by simp)
    refine (agree_iff hLeft hRight).trans ((singleton_eq_iff _ _).trans ?_)
    simp [BitVec.not_and, not_or_ones_iff]
  · have hLeft := (replaces_or x y).append (replaces_not _) (by simp)
    have hRight := hBoth.append (replaces_and _ _) (by simp)
    refine (agree_iff hLeft hRight).trans ((singleton_eq_iff _ _).trans ?_)
    simp [BitVec.not_or, not_and_ones_iff]

/-- For each law the operands on which it holds of the opcodes. -/
theorem bitwise_laws_iff (x y : Word) :
    ((Replaces [0x16] [x, y] [x &&& y] ↔ high (x &&& y) = 0) ∧
      (Replaces [0x17] [x, y] [x ||| y] ↔ high (x ||| y) = high y) ∧
      (Replaces [0x18] [x, y] [x ^^^ y] ↔ high x = 0) ∧ Replaces [0x19] [x] [~~~x]) ∧
    (Agree [0x16] [x, y] [0x16] [y, x] ∧
      (Agree [0x17] [x, y] [0x17] [y, x] ↔ high x = high y) ∧
      (Agree [0x18] [x, y] [0x18] [y, x] ↔ high x = high y)) ∧
    ((Replaces [0x16] [x, x] [x] ↔ high x = 0) ∧ Replaces [0x17] [x, x] [x] ∧
      (Replaces [0x18] [x, x] [0] ↔ high x = 0)) ∧
    (Agree [0x16, 0x19] [x, y] (notBoth ++ [0x17]) [x, y] ↔ high y = 0) ∧
    (Agree [0x17, 0x19] [x, y] (notBoth ++ [0x16]) [x, y] ↔ high y = BitVec.allOnes 32) := by
  obtain ⟨hAnd, hOr, hXor⟩ := bitwise_values_iff x y
  exact ⟨⟨hAnd, hOr, hXor, replaces_not x⟩, bitwise_comm_iff x y, bitwise_self_iff x,
    de_morgan_iff x y⟩

/-- PUSH1 0, NOT twice and AND leave the low half of -1 AND -1. -/
theorem bitwise_laws_fail :
    let code : Bytecode := ⟨[0x60, 0, 0x19, 0x60, 0, 0x19, 0x16], fun _ => 0⟩
    let s := stackCreate 4 (fun _ => 0) zeroMemory
    (final (executeFor code 4 0 s.machine)).stack.items = [-1, -1] ∧
      outcome (executeFor code 5 0 s.machine) = .ok (.inl 7) ∧
      (final (executeFor code 5 0 s.machine)).stack.items = [0xffffffff] := by
  decide +kernel

end Manhattan.Vm
