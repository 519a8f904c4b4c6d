import Manhattan.Vm.Rewrites

/-! # Which operand is popped first

The reference table names the operands of an opcode from the top of the stack down.
`perform` is the work of a case once its variables hold the operands of the table; an opcode
follows the table when its case is `perform` on the operands in the order they are popped.
-/

namespace Manhattan.Vm

open Library.ExecRules

/-! ## The cases on named operands -/

def divOperation (a b : Word) : VM Word := do
  exitIf (b = 0) "Error: Division by zero\n"
  cDiv a b

def sdivOperation (a b : Word) : VM Word := do
  exitIf (b = 0) "Error: Division by zero\n"
  let result ← cDiv a b
  if (a ^^^ b).toInt < 0 then do
    let remainder ← cRem a b
    if remainder ≠ 0 then do
      let remainder ← cRem a b
      let quotient ← cDiv (-(a - remainder)) b
      return -quotient
    else return result
  else return result

def modOperation (a b : Word) : VM Word := do
  exitIf (b = 0) "Error: Division by zero\n"
  cRem a b

def smodOperation (a b : Word) : VM Word := do
  exitIf (b = 0) "Error: Division by zero\n"
  let result ← cRem a b
  if (a ^^^ b).toInt < 0 then do
    let remainder ← cRem a b
    if remainder ≠ 0 then do
      let quotient ← cDiv (-a) b
      return quotient * b + a
    else return result
  else return result

def remainderBy (value c : Word) : VM Word := do
  exitIf (c = 0) "Error: Modulo by zero\n"
  cRem value c

def byteOperation (b : BitVec 32) (a : Word) : VM Word := do
  exitIf (b.toNat ≥ 32) "Byte offset out of range for BYTE operation.\n"
  return a.sshiftRight ((8 * b).toNat % 64) &&& 0xFF

def shlOperation (b : BitVec 32) (a : Word) : Word :=
  if b.toNat > 255 then 0 else a <<< (b.toNat % 64)

def shrOperation (b : BitVec 32) (a : Word) : Word :=
  if b.toNat > 255 then 0 else a.sshiftRight (b.toNat % 64)

def sarOperation (b : BitVec 32) (a : Word) : Word :=
  if b.toNat > 63 then if a.toInt < 0 then INT64_MIN else 0 else a.sshiftRight b.toNat

/-- MSTORE and MSTORE8 after their pops. -/
def store (pc : Nat) (mask : BitVec 32 → BitVec 32) (a : Word) (b : BitVec 32) : VM Control := do
  let size ← memorySize
  if outOfBounds a (size * 8) then return errorReturn "Error: Offset out of bounds\n" (-1)
  else do
    let old ← readMemory (a.toNat / 8)
    writeMemory (a.toNat / 8) (storeBits old (mask b) (a.toNat % 8))
    return .inl pc

def jumpIf (code : Bytecode) (pc : Nat) (dst : Word) (condition : BitVec 32) : Control :=
  if condition ≠ 0 then jumpTo code dst else .inl pc

def pushes (pc : Nat) (operation : VM Word) : VM Control := andBreak pc do
  let result ← operation
  stackPush result

/-- The operands in the order of the reference table; where the case keeps an operand in the
`uint32_t b`, it is cut down to 32 bits. -/
def perform (code : Bytecode) (pc : Nat) (first second third : Word) : Opcode → VM Control
  | .sub => pushes pc (return first - second)
  | .div => pushes pc (divOperation first second)
  | .sdiv => pushes pc (sdivOperation first second)
  | .mod => pushes pc (modOperation first second)
  | .smod => pushes pc (smodOperation first second)
  | .addmod => pushes pc (remainderBy (first + second) third)
  | .mulmod => pushes pc (remainderBy (first * second) third)
  | .exp => pushes pc (expLoop second first 1)
  | .lt => pushes pc (return ofBool (first.toInt < (low second).toInt))
  | .gt => pushes pc (return ofBool (first.toInt > (low second).toInt))
  | .slt => pushes pc (return ofBool (first.toInt < (low second).toInt))
  | .sgt => pushes pc (return ofBool (first.toInt > (low second).toInt))
  | .byte => pushes pc (byteOperation (first.setWidth 32) second)
  | .shl => pushes pc (return shlOperation (first.setWidth 32) second)
  | .shr => pushes pc (return shrOperation (first.setWidth 32) second)
  | .sar => pushes pc (return sarOperation (first.setWidth 32) second)
  | .mstore => store pc (fun b => b) first (second.setWidth 32)
  | .mstore8 => store pc (fun b => b &&& 0xFF) first (second.setWidth 32)
  | .sstore => andBreak pc (storageStore first second)
  | .jumpi => return jumpIf code pc first (second.setWidth 32)
  | _ => return .inl pc

def Opcode.operands : Opcode → Nat
  | .addmod | .mulmod => 3
  | _ => 2

def inOrder (code : Bytecode) (pc : Nat) (op : Opcode) : VM Control :=
  if op.operands = 3 then do
    let x ← stackPop
    let y ← stackPop
    let z ← stackPop
    perform code pc x y z op
  else do
    let x ← stackPop
    let y ← stackPop
    perform code pc x y 0 op

def inReverse (code : Bytecode) (pc : Nat) (op : Opcode) : VM Control :=
  if op.operands = 3 then do
    let x ← stackPop
    let y ← stackPop
    let z ← stackPop
    perform code pc z y x op
  else do
    let x ← stackPop
    let y ← stackPop
    perform code pc y x 0 op

/-- SUB, DIV, SDIV, MOD, SMOD, ADDMOD, MULMOD, EXP, LT, GT, SLT, SGT, MSTORE, MSTORE8, SSTORE
and JUMPI -/
def reversedOpcodes : List Byte :=
  [0x03, 0x04, 0x05, 0x06, 0x07, 0x08, 0x09, 0x0a, 0x10, 0x11, 0x12, 0x13, 0x52, 0x53, 0x55, 0x57]

/-- BYTE, SHL, SHR and SAR -/
def orderedOpcodes : List Byte := [0x1a, 0x1b, 0x1c, 0x1d]

/-! ## One turn -/

section Turn

variable {code : Bytecode} {pc : Nat} {m : Machine}

theorem require_bind {α : Type} {depth : Int} (h : depth ≤ m.stack.top) (name : String)
    (run : VM α) : (require depth name >>= fun _ => run) m = run m := by
  refine bind_of_ok ((bind_of_ok rfl).trans ((exitIf_apply _ _ m).trans (if_neg ?_)))
  omega

theorem andBreak_bind {α : Type} (run : VM α) (f : α → VM Unit) :
    andBreak pc (run >>= f) = run >>= fun a => andBreak pc (f a) := bind_assoc _ _ _

theorem stackPop32_bind {α : Type} (f : BitVec 32 → VM α) :
    stackPop32 >>= f = stackPop >>= fun v => f (v.setWidth 32) := bind_assoc _ _ _

theorem arithmeticCase_operands (operation : Word → Word → VM Word) :
    andBreak pc (arithmeticCase operation) = (do
      let x ← stackPop
      let y ← stackPop
      pushes pc (operation y x)) := by
  simp only [arithmeticCase, andBreak_bind, pushes]

theorem moduloCase_operands (operation : Word → Word → Word) :
    andBreak pc (moduloCase operation) = (do
      let x ← stackPop
      let y ← stackPop
      let z ← stackPop
      pushes pc (remainderBy (operation z y) x)) := by
  simp only [moduloCase, andBreak_bind, pushes, remainderBy, bind_assoc]

theorem lowTopCase_operands (name : String) (operation : Word → BitVec 32 → VM Word)
    (hTop : 1 ≤ m.stack.top) :
    andBreak pc (lowTopCase name operation) m = (do
      let x ← stackPop
      let y ← stackPop
      pushes pc (operation y (x.setWidth 32))) m := by
  simp only [lowTopCase, andBreak_bind, stackPop32_bind, pushes]
  exact require_bind hTop name _

theorem caseEXP_operands : andBreak pc caseEXP = (do
    let x ← stackPop
    let y ← stackPop
    pushes pc (expLoop x y 1)) := by
  simp only [caseEXP, andBreak_bind, pushes]

theorem storeCase_operands (mask : BitVec 32 → BitVec 32) :
    storeCase pc mask = (do
      let x ← stackPop
      let y ← stackPop
      store pc mask y (x.setWidth 32)) := stackPop32_bind _

theorem caseSSTORE_operands : andBreak pc caseSSTORE = (do
    let x ← stackPop
    let y ← stackPop
    andBreak pc (storageStore y x)) := by
  simp only [caseSSTORE, andBreak_bind]

theorem caseJUMPI_operands : caseJUMPI code pc = (do
    let x ← stackPop
    let y ← stackPop
    return jumpIf code pc y (x.setWidth 32)) := stackPop32_bind _

theorem operands_range (op : Opcode) : 2 ≤ op.operands ∧ op.operands ≤ 3 := by
  unfold Opcode.operands
  split <;> omega

theorem one_le_top {op : Opcode} (hTop : (op.operands : Int) ≤ m.stack.top + 1) :
    1 ≤ m.stack.top := by
  have hOperands := operands_range op
  omega

theorem executeCase_reversed {b : Byte} (hb : b ∈ reversedOpcodes)
    (hTop : ((decode b).operands : Int) ≤ m.stack.top + 1) :
    executeCase code pc (decode b) m = inReverse code pc (decode b) m := by
  have hTwo := one_le_top hTop
  simp only [reversedOpcodes, List.mem_cons, List.not_mem_nil, or_false] at hb
  obtain rfl | rfl | rfl | rfl | rfl | rfl | rfl | rfl | rfl | rfl | rfl | rfl | rfl | rfl | rfl |
    rfl := hb
  · exact congrFun (arithmeticCase_operands _) m
  · exact congrFun (arithmeticCase_operands divOperation) m
  · exact congrFun (arithmeticCase_operands sdivOperation) m
  · exact congrFun (arithmeticCase_operands modOperation) m
  · exact congrFun (arithmeticCase_operands smodOperation) m
  · exact congrFun (moduloCase_operands _) m
  · exact congrFun (moduloCase_operands _) m
  · exact congrFun caseEXP_operands m
  · exact lowTopCase_operands _ _ hTwo
  · exact lowTopCase_operands _ _ hTwo
  · exact lowTopCase_operands _ _ hTwo
  · exact lowTopCase_operands _ _ hTwo
  · exact congrFun (storeCase_operands _) m
  · exact congrFun (storeCase_operands _) m
  · exact congrFun caseSSTORE_operands m
  · exact congrFun caseJUMPI_operands m

theorem executeCase_ordered {b : Byte} (hb : b ∈ orderedOpcodes)
    (hTop : ((decode b).operands : Int) ≤ m.stack.top + 1) :
    executeCase code pc (decode b) m = inOrder code pc (decode b) m := by
  have hTwo := one_le_top hTop
  simp only [orderedOpcodes, List.mem_cons, List.not_mem_nil, or_false] at hb
  obtain rfl | rfl | rfl | rfl := hb
  · exact lowTopCase_operands _ _ hTwo
  · exact lowTopCase_operands _ _ hTwo
  · exact lowTopCase_operands _ _ hTwo
  · exact lowTopCase_operands _ _ hTwo

end Turn

/-! ## The reference table -/

/-- Whenever the opcode finds its operands and goes on, it has done its work on them in the
order of the table. -/
def FollowsReference (b : Byte) : Prop :=
  ∀ (code : Bytecode) (pc capacity : Nat) (m : Machine), code.bytes[pc]? = some b →
    m.stack.InRange capacity → ((decode b).operands : Int) ≤ m.stack.top + 1 →
      ∀ pc' m', cycle code pc m = .ok (.inl pc') m' →
        inOrder code (pc + 1) (decode b) (m.fetched pc) = .ok (.inl pc') m'

def TakesReversed (b : Byte) : Prop :=
  ∀ (code : Bytecode) (pc capacity : Nat) (m : Machine), code.bytes[pc]? = some b →
    m.stack.InRange capacity → ((decode b).operands : Int) ≤ m.stack.top + 1 →
      cycle code pc m = inReverse code (pc + 1) (decode b) (m.fetched pc)

theorem followsReference_of_ordered {b : Byte} (hb : b ∈ orderedOpcodes) : FollowsReference b := by
  intro code pc capacity m hFetch _ hTop pc' m' hRun
  rwa [cycle_of_getElem? hFetch, executeCase_ordered (m := m.fetched pc) hb hTop] at hRun

theorem takesReversed_of_reversed {b : Byte} (hb : b ∈ reversedOpcodes) : TakesReversed b := by
  intro code pc capacity m hFetch _ hTop
  rw [cycle_of_getElem? hFetch, executeCase_reversed (m := m.fetched pc) hb hTop]

/-- What can be compared after a turn that goes on. -/
def observe : EStateM.Result Halt Machine Control → Option (Nat × List Word × List Byte × Storage)
  | .ok (.inl pc) m => some (pc, m.stack.items, m.stack.memory.data, m.stack.storage)
  | _ => none

/-- Two JUMPDESTs that can be told apart by the operands of `operandStack`. -/
def operandCode (b : Byte) : Bytecode := ⟨[b, 0, 0x5b, 0, 0, 0x5b], fun _ => 0⟩

def operandStack : Stack :=
  { stackCreate 4 (fun _ => 0) zeroMemory with top := 2, data := [7, 2, 5, 0] }

theorem observed_apart : ∀ b ∈ reversedOpcodes,
    (observe (cycle (operandCode b) 0 operandStack.machine)).isSome ∧
      observe (cycle (operandCode b) 0 operandStack.machine) ≠
        observe (inOrder (operandCode b) 1 (decode b) (operandStack.machine.fetched 0)) := by
  decide +kernel

theorem not_followsReference {b : Byte} (hb : b ∈ reversedOpcodes) : ¬FollowsReference b := by
  intro hFollows
  obtain ⟨hSome, hApart⟩ := observed_apart b hb
  have hTop : ((decode b).operands : Int) ≤ operandStack.machine.stack.top + 1 := by
    have hOperands := operands_range (decode b)
    change _ ≤ (2 : Int) + 1
    omega
  have hRange : operandStack.machine.stack.InRange 4 := ⟨rfl, rfl, by decide, by decide⟩
  cases hRun : cycle (operandCode b) 0 operandStack.machine with
  | ok control m' =>
    cases control with
    | inl pc' =>
      rw [hFollows (operandCode b) 0 4 _ rfl hRange hTop pc' m' hRun, hRun] at hApart
      exact hApart rfl
    | inr r =>
      rw [hRun] at hSome
      cases hSome
  | error e m' =>
    rw [hRun] at hSome
    cases hSome

/-- Of the twenty opcodes BYTE and the shifts take their operands as the reference table lists
them, and the others the other way round. -/
theorem operand_order_iff {b : Byte} (hb : b ∈ reversedOpcodes ++ orderedOpcodes) :
    (FollowsReference b ↔ b ∈ orderedOpcodes) ∧ (b ∉ orderedOpcodes → TakesReversed b) := by
  rw [List.mem_append] at hb
  have hOther : b ∉ orderedOpcodes → b ∈ reversedOpcodes := fun h => hb.resolve_right h
  refine ⟨⟨fun hFollows => ?_, followsReference_of_ordered⟩,
    fun h => takesReversed_of_reversed (hOther h)⟩
  by_contra hNot
  exact not_followsReference (hOther hNot) hFollows

/-- PUSH1 2, PUSH1 5, SUB: 2 - 5 instead of 5 - 2. -/
theorem operand_order_sub :
    let code : Bytecode := ⟨[0x60, 2, 0x60, 5, 0x03], fun _ => 0⟩
    let s := stackCreate 4 (fun _ => 0) zeroMemory
    (final (executeFor code 2 0 s.machine)).stack.items = [2, 5] ∧
      outcome (executeFor code 3 0 s.machine) = .ok (.inl 5) ∧
      (final (executeFor code 3 0 s.machine)).stack.items = [-3] ∧ ¬FollowsReference 0x03 :=
  ⟨by decide +kernel, by decide +kernel, by decide +kernel, not_followsReference (by decide)⟩

theorem operand_order_iff_shl : FollowsReference 0x1b ∧ TakesReversed 0x03 :=
  ⟨(operand_order_iff (by decide)).1.mpr (by decide), (operand_order_iff (by decide)).2 (by decide)⟩

end Manhattan.Vm
