import Manhattan.Vm.Boundaries
import Manhattan.Vm.Operands
import Manhattan.Vm.StackSafety
import Manhattan.Vm.StorageBounds
import Manhattan.Vm.Unsigned

/-! # Divisions that trap

DIV, SDIV, MOD, SMOD, ADDMOD and MULMOD exit with a message when their divisor is zero. The
other division on which `idiv` traps, INT64_MIN by -1, they do not look for. A turn of the
loop traps at no other place.
-/

namespace Manhattan.Vm

open Library.ExecRules

/-- The dividend and the divisor of the first division in the case. -/
def Opcode.division (s : Stack) : Opcode → Option (Word × Word)
  | .div | .sdiv | .mod | .smod => some (s.fromTop 1, s.fromTop 0)
  | .addmod => some (s.fromTop 2 + s.fromTop 1, s.fromTop 0)
  | .mulmod => some (s.fromTop 2 * s.fromTop 1, s.fromTop 0)
  | _ => none

def Opcode.zeroText : Opcode → String
  | .addmod | .mulmod => "Error: Modulo by zero\n"
  | _ => "Error: Division by zero\n"

/-- The instruction at `pc` finds its operands and divides `x` by `y`. -/
def DividesAt (code : Bytecode) (pc : Nat) (s : Stack) (x y : Word) : Prop :=
  pc < code.size ∧ ((decode (code.read pc)).operands : Int) ≤ s.top + 1 ∧
    (decode (code.read pc)).division s = some (x, y)

instance (code : Bytecode) (pc : Nat) (s : Stack) (x y : Word) :
    Decidable (DividesAt code pc s x y) := inferInstanceAs (Decidable (_ ∧ _ ∧ _))

/-- A turn that divides ends in the message for a zero divisor, or puts one result in the place
of the operands. Any division of the case that `idiv` traps on would end it in a trap. -/
def DividesSafely (code : Bytecode) (pc : Nat) (m : Machine) : Prop :=
  ∀ x y, DividesAt code pc m.stack x y →
    if y = 0 then
      ∃ m', cycle code pc m = .error (.exit (decode (code.read pc)).zeroText) m'
    else ∃ r m', cycle code pc m = .ok (.inl (pc + 1)) m' ∧
      m'.stack.items =
        m.stack.items.take (m.stack.items.length - (decode (code.read pc)).operands) ++ [r]

/-! ## The work of the six cases -/

/-- What the case does to its operands, up to the push. -/
structure DividesFirst (x y : Word) (text : String) (run : VM Word) : Prop where
  zero : y = 0 → run = exit text
  overflow : x = INT64_MIN → y = -1 → run = throw .trap
  divides : Divides x y → ∃ r, run = pure r

theorem cDiv_overflow {a b : Word} (ha : a = INT64_MIN) (hb : b = -1) : cDiv a b = throw .trap :=
  if_pos (.inr ⟨ha, hb⟩)

theorem cRem_overflow {a b : Word} (ha : a = INT64_MIN) (hb : b = -1) : cRem a b = throw .trap :=
  if_pos (.inr ⟨ha, hb⟩)

theorem dividesFirst_of {x y : Word} {text : String} {run : VM Word}
    (hOverflow : x = INT64_MIN → y = -1 → run = throw .trap)
    (hDivides : Divides x y → ∃ r, run = pure r) :
    DividesFirst x y text (exitIf (y = 0) text >>= fun _ => run) where
  zero hZero := by
    rw [exitIf, if_pos hZero]
    rfl
  overflow hx hy := by
    have hNonzero : ¬y = 0 := by
      rw [hy]
      decide
    rw [exitIf_of_not hNonzero, pure_bind, hOverflow hx hy]
  divides h := by
    rw [exitIf_of_not h.1, pure_bind]
    exact hDivides h

theorem dividesFirst_div (a b : Word) :
    DividesFirst a b "Error: Division by zero\n" (divOperation a b) :=
  dividesFirst_of cDiv_overflow fun h => ⟨_, h.cDiv⟩

theorem dividesFirst_mod (a b : Word) :
    DividesFirst a b "Error: Division by zero\n" (modOperation a b) :=
  dividesFirst_of cRem_overflow fun h => ⟨_, h.cRem⟩

theorem dividesFirst_remainderBy (value c : Word) :
    DividesFirst value c "Error: Modulo by zero\n" (remainderBy value c) :=
  dividesFirst_of cRem_overflow fun h => ⟨_, h.cRem⟩

/-- In the branches of the corrections the divisor is not -1, so that they never trap. -/
theorem dividesFirst_sdiv (a b : Word) :
    DividesFirst a b "Error: Division by zero\n" (sdivOperation a b) := by
  refine dividesFirst_of (fun ha hb => ?_) fun h => ?_
  · rw [cDiv_overflow ha hb]
    rfl
  · simp only [h.cDiv, h.cRem, pure_bind]
    refine ⟨_, branch_eq (c := -((-(a - a.srem b)).sdiv b)) fun hBranch => ?_⟩
    rw [(divides_of_ne _ h.1 hBranch.ne_neg_one).cDiv, pure_bind]

theorem dividesFirst_smod (a b : Word) :
    DividesFirst a b "Error: Division by zero\n" (smodOperation a b) := by
  refine dividesFirst_of (fun ha hb => ?_) fun h => ?_
  · rw [cRem_overflow ha hb]
    rfl
  · simp only [h.cRem, pure_bind]
    refine ⟨_, branch_eq (c := (-a).sdiv b * b + a) fun hBranch => ?_⟩
    rw [(divides_of_ne _ h.1 hBranch.ne_neg_one).cDiv, pure_bind]

/-! ## One case -/

variable {code : Bytecode} {pc : Nat} {m : Machine} {x y : Word}

theorem arithmeticCase_popped (operation : Word → Word → VM Word) (hTop : 1 ≤ m.stack.top) :
    ∃ m', m'.stack = { m.stack with top := m.stack.top - 2 } ∧
      andBreak pc (arithmeticCase operation) m =
        pushes pc (operation (m.stack.fromTop 1) (m.stack.fromTop 0)) m' := by
  obtain ⟨m₁, m₂, hFirst, hSecond, hStack⟩ := stackPop_fromTop_two hTop
  rw [Int.sub_sub] at hStack
  refine ⟨m₂, hStack, ?_⟩
  rw [arithmeticCase_operands]
  exact (bind_of_ok hFirst).trans (bind_of_ok hSecond)

theorem moduloCase_popped (operation : Word → Word → Word) (hTop : 2 ≤ m.stack.top) :
    ∃ m', m'.stack = { m.stack with top := m.stack.top - 3 } ∧
      andBreak pc (moduloCase operation) m =
        pushes pc (remainderBy (operation (m.stack.fromTop 2) (m.stack.fromTop 1))
          (m.stack.fromTop 0)) m' := by
  obtain ⟨m₁, hFirst, hStack₁⟩ := stackPop_fromTop (m := m) (by omega)
  have hTop₁ : 1 ≤ m₁.stack.top := by
    rw [hStack₁]
    change 1 ≤ m.stack.top - 1
    omega
  obtain ⟨m₂, m₃, hSecond, hThird, hStack⟩ := stackPop_fromTop_two hTop₁
  have hSecondTop : m₁.stack.fromTop 0 = m.stack.fromTop 1 := by
    simp [hStack₁, Stack.fromTop]
  have hThirdTop : m₁.stack.fromTop 1 = m.stack.fromTop 2 := by
    simp only [hStack₁, Stack.fromTop]
    congr 2
    omega
  rw [hSecondTop] at hSecond
  rw [hThirdTop] at hThird
  rw [hStack₁] at hStack
  refine ⟨m₃, hStack.trans ?_, ?_⟩
  · simp only [Int.sub_sub]
    rfl
  · rw [moduloCase_operands]
    exact (bind_of_ok hFirst).trans ((bind_of_ok hSecond).trans (bind_of_ok hThird))

/-- After its pops the case is `run` followed by the push. -/
theorem executeCase_division {op : Opcode} (hTop : (op.operands : Int) ≤ m.stack.top + 1)
    (h : op.division m.stack = some (x, y)) :
    ∃ run m', DividesFirst x y op.zeroText run ∧
      m'.stack = { m.stack with top := m.stack.top - op.operands } ∧
      executeCase code pc op m = pushes pc run m' := by
  have hTwo : 1 ≤ m.stack.top := one_le_top hTop
  cases op with
  | div =>
    cases h
    obtain ⟨m', hStack, hRun⟩ := arithmeticCase_popped divOperation hTwo
    exact ⟨_, m', dividesFirst_div _ _, hStack, hRun⟩
  | sdiv =>
    cases h
    obtain ⟨m', hStack, hRun⟩ := arithmeticCase_popped sdivOperation hTwo
    exact ⟨_, m', dividesFirst_sdiv _ _, hStack, hRun⟩
  | mod =>
    cases h
    obtain ⟨m', hStack, hRun⟩ := arithmeticCase_popped modOperation hTwo
    exact ⟨_, m', dividesFirst_mod _ _, hStack, hRun⟩
  | smod =>
    cases h
    obtain ⟨m', hStack, hRun⟩ := arithmeticCase_popped smodOperation hTwo
    exact ⟨_, m', dividesFirst_smod _ _, hStack, hRun⟩
  | addmod =>
    cases h
    have hThree : (3 : Int) ≤ m.stack.top + 1 := hTop
    obtain ⟨m', hStack, hRun⟩ := moduloCase_popped (m := m) (fun a b => a + b) (by omega)
    exact ⟨_, m', dividesFirst_remainderBy _ _, hStack, hRun⟩
  | mulmod =>
    cases h
    have hThree : (3 : Int) ≤ m.stack.top + 1 := hTop
    obtain ⟨m', hStack, hRun⟩ := moduloCase_popped (m := m) (fun a b => a * b) (by omega)
    exact ⟨_, m', dividesFirst_remainderBy _ _, hStack, hRun⟩
  | _ => cases h

/-! ## One turn -/

theorem DividesAt.cycle (h : DividesAt code pc m.stack x y) :
    ∃ run m', DividesFirst x y (decode (code.read pc)).zeroText run ∧
      m'.stack = { m.stack with top := m.stack.top - (decode (code.read pc)).operands } ∧
      cycle code pc m = pushes (pc + 1) run m' := by
  obtain ⟨hPc, hTop, hDivision⟩ := h
  rw [cycle_of_lt hPc]
  exact executeCase_division (m := m.fetched pc) hTop hDivision

theorem cycle_zero (h : DividesAt code pc m.stack x y) (hZero : y = 0) :
    ∃ m', cycle code pc m = .error (.exit (decode (code.read pc)).zeroText) m' := by
  obtain ⟨run, m', hRun, _, hCycle⟩ := h.cycle
  refine ⟨m', hCycle.trans ?_⟩
  rw [hRun.zero hZero]
  rfl

theorem cycle_overflow (h : DividesAt code pc m.stack INT64_MIN (-1)) :
    ∃ m', cycle code pc m = .error .trap m' := by
  obtain ⟨run, m', hRun, _, hCycle⟩ := h.cycle
  refine ⟨m', hCycle.trans ?_⟩
  rw [hRun.overflow rfl rfl]
  rfl

theorem holds_dropped {capacity k : Nat} (hRange : m.stack.InRange capacity)
    (hTop : (k : Int) ≤ m.stack.top + 1) {m' : Machine}
    (hStack : m'.stack = { m.stack with top := m.stack.top - k }) :
    m'.Holds capacity (m.stack.items.take (m.stack.items.length - k)) m.stack.memory
      m.stack.storage := by
  have hLength := length_items hRange
  obtain ⟨hSize, hCells, hLower, hUpper⟩ := hRange
  obtain ⟨stack, trace⟩ := m'
  obtain rfl := hStack
  refine ⟨⟨hSize, hCells, ?_, ?_⟩, ?_, rfl, rfl⟩
  · change -1 ≤ m.stack.top - k
    omega
  · change m.stack.top - k ≤ m.stack.size - 1
    omega
  · change m.stack.data.take (m.stack.top - k + 1).toNat =
      (m.stack.data.take (m.stack.top + 1).toNat).take (m.stack.items.length - k)
    rw [List.take_take]
    congr 1
    omega

theorem cycle_divides {capacity : Nat} (hRange : m.stack.InRange capacity)
    (h : DividesAt code pc m.stack x y) (hDivides : Divides x y) :
    ∃ r m', cycle code pc m = .ok (.inl (pc + 1)) m' ∧ m'.stack.items =
      m.stack.items.take (m.stack.items.length - (decode (code.read pc)).operands) ++ [r] := by
  obtain ⟨run, m₁, hRun, hStack, hCycle⟩ := h.cycle
  obtain ⟨r, rfl⟩ := hRun.divides hDivides
  have hHolds := holds_dropped hRange h.2.1 hStack
  have hOperands := operands_range (decode (code.read pc))
  have hLength := length_items hRange
  have hRoom : (m.stack.items.take
      (m.stack.items.length - (decode (code.read pc)).operands)).length < capacity := by
    obtain ⟨hSize, _, _, hUpper⟩ := hRange
    have hTop := h.2.1
    rw [List.length_take]
    omega
  obtain ⟨m', hPush, h'⟩ := stackPush_holds r hHolds hRoom
  exact ⟨r, m', hCycle.trans (andBreak_of_ok hPush _), h'.items⟩

/-! ## How a turn stops -/

/-- What stops the turn at `pc` on the stack `s` before its end. -/
inductive Stops (code : Bytecode) (pc : Nat) (s : Stack) : Halt → Prop
  | exit (message : String) : Stops code pc s (.exit message)
  | trap (h : DividesAt code pc s INT64_MIN (-1)) : Stops code pc s .trap
  | fault {key : Word} (hLooksUp : LooksUp code pc s key) (hOutside : ¬s.storage.Admits key) :
      Stops code pc s .fault

abbrev Exits {α : Type} (m : VM α) : Prop :=
  Keeps (fun _ => True) (fun e _ => ∃ message, e = .exit message) m

theorem tolerates_exits :
    Tolerates (fun _ => True) fun e _ => ∃ message, e = .exit message := by
  constructor
  · exact fun _ _ _ _ => trivial
  · exact fun _ _ _ _ => trivial
  · exact fun message _ _ => ⟨message, rfl⟩

theorem exits_executeCase (code : Bytecode) (pc : Nat) {op : Opcode} (hSload : op ≠ .sload)
    (hSstore : op ≠ .sstore) (hDivides : op.divides = false) : Exits (executeCase code pc op) := by
  by_cases hStop : op = .stop
  · subst hStop
    exact Tolerates.getStack.bind fun _ => .pure _
  · exact (exiting_executeCase code pc hStop hSload hSstore hDivides).keeps
      (fun _ hm => tolerates_exits.primitive (fun _ _ _ => trivial) hm) fun _ _ he _ => he

variable {α : Type} {e : Halt} {m' : Machine}

theorem Exits.of_error {run : VM α} (h : Exits run) (hRun : run m = .error e m') :
    ∃ message, e = .exit message := Keeps.of_error h trivial hRun

theorem stackPop_bind_error {f : Word → VM α} (h : (stackPop >>= f) m = .error e m') :
    (∃ message, e = .exit message) ∨
      0 ≤ m.stack.top ∧ ∃ m₁, m₁.stack = { m.stack with top := m.stack.top - 1 } ∧
        f (m.stack.fromTop 0) m₁ = .error e m' := by
  obtain hTop | hBelow := le_or_gt 0 m.stack.top
  · obtain ⟨m₁, hPop, hStack⟩ := stackPop_fromTop hTop
    rw [bind_of_ok hPop] at h
    exact .inr ⟨hTop, m₁, hStack, h⟩
  · rw [bind_of_error (stackPop_below (by omega))] at h
    cases h
    exact .inl ⟨_, rfl⟩

theorem arithmeticCase_error {operation : Word → Word → VM Word}
    (h : andBreak pc (arithmeticCase operation) m = .error e m') :
    (∃ message, e = .exit message) ∨ (2 : Int) ≤ m.stack.top + 1 := by
  rw [arithmeticCase_operands] at h
  obtain hExit | ⟨_, m₁, hStack, h⟩ := stackPop_bind_error h
  · exact .inl hExit
  obtain hExit | ⟨hTop, _⟩ := stackPop_bind_error h
  · exact .inl hExit
  · rw [hStack] at hTop
    change 0 ≤ m.stack.top - 1 at hTop
    exact .inr (by omega)

theorem moduloCase_error {operation : Word → Word → Word}
    (h : andBreak pc (moduloCase operation) m = .error e m') :
    (∃ message, e = .exit message) ∨ (3 : Int) ≤ m.stack.top + 1 := by
  rw [moduloCase_operands] at h
  obtain hExit | ⟨_, m₁, hStack₁, h⟩ := stackPop_bind_error h
  · exact .inl hExit
  obtain hExit | ⟨_, m₂, hStack₂, h⟩ := stackPop_bind_error h
  · exact .inl hExit
  obtain hExit | ⟨hTop, _⟩ := stackPop_bind_error h
  · exact .inl hExit
  · rw [hStack₂, hStack₁] at hTop
    change 0 ≤ m.stack.top - 1 - 1 at hTop
    exact .inr (by omega)

theorem operands_of_error {op : Opcode} (hDivides : op.divides = true)
    (h : executeCase code pc op m = .error e m') :
    (∃ message, e = .exit message) ∨ (op.operands : Int) ≤ m.stack.top + 1 := by
  cases op with
  | div => exact arithmeticCase_error (show andBreak pc (arithmeticCase divOperation) m = _ from h)
  | sdiv => exact arithmeticCase_error (show andBreak pc (arithmeticCase sdivOperation) m = _ from h)
  | mod => exact arithmeticCase_error (show andBreak pc (arithmeticCase modOperation) m = _ from h)
  | smod => exact arithmeticCase_error (show andBreak pc (arithmeticCase smodOperation) m = _ from h)
  | addmod | mulmod => exact moduloCase_error h
  | _ => cases hDivides

theorem exists_division {op : Opcode} (hDivides : op.divides = true) (s : Stack) :
    ∃ x y, op.division s = some (x, y) := by
  cases op with
  | div | sdiv | mod | smod | addmod | mulmod => exact ⟨_, _, rfl⟩
  | _ => cases hDivides

theorem stops_of_division (hPc : pc < code.size) (hDivides : (decode (code.read pc)).divides = true)
    (h : cycle code pc m = .error e m') : Stops code pc m.stack e := by
  have hCase := h
  rw [cycle_of_lt hPc] at hCase
  obtain ⟨message, rfl⟩ | hTop := operands_of_error hDivides hCase
  · exact .exit message
  obtain ⟨x, y, hDivision⟩ := exists_division hDivides m.stack
  have hAt : DividesAt code pc m.stack x y := ⟨hPc, hTop, hDivision⟩
  obtain ⟨run, m₁, hRun, _, hCycle⟩ := hAt.cycle
  rw [hCycle] at h
  by_cases hNormal : Divides x y
  · obtain ⟨r, rfl⟩ := hRun.divides hNormal
    have hPush : Exits (andBreak (pc + 1) (stackPush r)) :=
      (tolerates_exits.stackPush r).bind fun _ => .pure _
    obtain ⟨message, rfl⟩ := hPush.of_error h
    exact .exit message
  · obtain hZero | ⟨rfl, rfl⟩ := or_iff_not_and_not.mpr fun hNone => hNormal ⟨hNone.1, hNone.2⟩
    · rw [hRun.zero hZero] at h
      cases h
      exact .exit _
    · rw [hRun.overflow rfl rfl] at h
      cases h
      exact .trap hAt

theorem stops_of_sload (hPc : pc < code.size) (hOp : decode (code.read pc) = .sload)
    (h : cycle code pc m = .error e m') : Stops code pc m.stack e := by
  rw [cycle_of_lt hPc, hOp] at h
  change andBreak (pc + 1) caseSLOAD (m.fetched pc) = _ at h
  rw [caseSLOAD, andBreak_bind] at h
  obtain ⟨message, rfl⟩ | ⟨hTop, m₁, hStack, h⟩ := stackPop_bind_error h
  · exact .exit message
  by_cases hInside : m.stack.storage.Admits (m.stack.fromTop 0)
  · have hInside₁ : m₁.stack.storage.Admits (m.stack.fromTop 0) := by
      rwa [hStack]
    obtain ⟨v, m₂, hLoad, _⟩ := storageLoad_of_admits hInside₁
    rw [andBreak_bind] at h
    have hPush : Exits (andBreak (pc + 1) (stackPush v)) :=
      (tolerates_exits.stackPush v).bind fun _ => .pure _
    obtain ⟨message, rfl⟩ := hPush.of_error ((bind_of_ok hLoad).symm.trans h)
    exact .exit message
  · have hOutside : ¬m₁.stack.storage.Admits (m.stack.fromTop 0) := by
      rwa [hStack]
    obtain ⟨m₂, hLoad, _⟩ := storageLoad_of_not_admits hOutside
    have hSame := (andBreak_of_error (bind_of_error hLoad) (pc + 1)).symm.trans h
    cases hSame
    exact .fault ⟨hPc, .inl ⟨hOp, hTop, rfl⟩⟩ hInside

theorem stops_of_sstore (hPc : pc < code.size) (hOp : decode (code.read pc) = .sstore)
    (h : cycle code pc m = .error e m') : Stops code pc m.stack e := by
  rw [cycle_of_lt hPc, hOp] at h
  change andBreak (pc + 1) caseSSTORE (m.fetched pc) = _ at h
  rw [caseSSTORE_operands] at h
  obtain ⟨message, rfl⟩ | ⟨_, m₁, hStack₁, h⟩ := stackPop_bind_error h
  · exact .exit message
  obtain ⟨message, rfl⟩ | ⟨hTop, m₂, hStack₂, h⟩ := stackPop_bind_error h
  · exact .exit message
  have hKey : m₁.stack.fromTop 0 = m.stack.fromTop 1 := by
    simp [hStack₁, Stack.fromTop, Machine.fetched]
  have hTwo : 1 ≤ m.stack.top := by
    rw [hStack₁] at hTop
    change 0 ≤ m.stack.top - 1 at hTop
    omega
  have hStorage : m₂.stack.storage = m.stack.storage := by
    rw [hStack₂, hStack₁]
    rfl
  rw [hKey] at h
  by_cases hInside : m₂.stack.storage.Admits (m.stack.fromTop 1)
  · obtain ⟨m₃, hStore, _⟩ := storageStore_of_admits ((m.fetched pc).stack.fromTop 0) hInside
    rw [andBreak_of_ok hStore] at h
    cases h
  · obtain ⟨m₃, hStore, _⟩ := storageStore_of_not_admits ((m.fetched pc).stack.fromTop 0) hInside
    rw [andBreak_of_error hStore] at h
    cases h
    rw [hStorage] at hInside
    exact .fault ⟨hPc, .inr ⟨hOp, hTwo, rfl⟩⟩ hInside

theorem cycle_stops (h : cycle code pc m = .error e m') : Stops code pc m.stack e := by
  obtain hPc | hEnd := Nat.lt_or_ge pc code.size
  · by_cases hSload : decode (code.read pc) = .sload
    · exact stops_of_sload hPc hSload h
    by_cases hSstore : decode (code.read pc) = .sstore
    · exact stops_of_sstore hPc hSstore h
    cases hDivides : (decode (code.read pc)).divides with
    | true => exact stops_of_division hPc hDivides h
    | false =>
      rw [cycle_of_lt hPc] at h
      obtain ⟨message, rfl⟩ :=
        (exits_executeCase code (pc + 1) hSload hSstore hDivides).of_error h
      exact .exit message
  · rw [cycle, if_neg (not_lt.mpr hEnd)] at h
    obtain ⟨message, rfl⟩ | ⟨_, _, _, hPure⟩ := stackPop_bind_error h
    · exact .exit message
    · cases hPure

/-! ## Runs -/

theorem executeFor_inRange {capacity : Nat} {s : Stack} (hs : s.InRange capacity) {n : Nat}
    (h : executeFor code n 0 s.machine = .ok (.inl pc) m) : m.stack.InRange capacity := by
  have hStart : s.machine.Safe capacity := ⟨hs, nofun⟩
  exact ((keeps_executeFor code n 0).of_ok hStart h).stack

theorem dividesSafely_iff {capacity : Nat} (hRange : m.stack.InRange capacity) :
    DividesSafely code pc m ↔ ¬DividesAt code pc m.stack INT64_MIN (-1) := by
  constructor
  · intro hSafe hAt
    obtain ⟨m', hTrap⟩ := cycle_overflow hAt
    have hResult := hSafe _ _ hAt
    rw [if_neg (by decide)] at hResult
    obtain ⟨r, m'', hRun, _⟩ := hResult
    rw [hTrap] at hRun
    cases hRun
  · intro hNone x y hAt
    split
    · rename_i hZero
      exact cycle_zero hAt hZero
    · rename_i hZero
      refine cycle_divides hRange hAt ⟨hZero, ?_⟩
      rintro ⟨rfl, rfl⟩
      exact hNone hAt

/-- Every division of a run is safe, and no run ends in a trap, if and only if it never comes to a
division of INT64_MIN by -1; a sum or a product counts as it is after its wrap-around. -/
theorem divisions_safe_iff (code : Bytecode) (capacity : Nat) (s : Stack)
    (hs : s.InRange capacity) :
    ((∀ n pc m, executeFor code n 0 s.machine = .ok (.inl pc) m → DividesSafely code pc m) ∧
        ∀ n m, executeFor code n 0 s.machine ≠ .error .trap m) ↔
      ∀ n pc m, executeFor code n 0 s.machine = .ok (.inl pc) m →
        ¬DividesAt code pc m.stack INT64_MIN (-1) := by
  constructor
  · intro h n pc m hRun
    exact (dividesSafely_iff (executeFor_inRange hs hRun)).mp (h.1 n pc m hRun)
  · intro hNone
    refine ⟨fun n pc m hRun => ?_, fun n m' hTrap => ?_⟩
    · exact (dividesSafely_iff (executeFor_inRange hs hRun)).mpr (hNone n pc m hRun)
    · obtain ⟨k, _, pc, m, hRun, hTurn⟩ := turns_error hTrap
      cases cycle_stops hTurn with
      | trap hAt => exact hNone k pc m hRun hAt

/-- 2^63, made by SHL or by SAR, divided by -1 -/
theorem division_traps :
    let run (bytes : List Byte) := executeFor ⟨bytes, fun _ => 0⟩ 7 0
      (stackCreate 4 (fun _ => 0) zeroMemory).machine
    outcome (run [0x60, 1, 0x60, 63, 0x1b, 0x5f, 0x19, 0x04]) = .error .trap ∧
      outcome (run [0x5f, 0x19, 0x60, 64, 0x1d, 0x5f, 0x19, 0x04]) = .error .trap := by
  decide +kernel

theorem divisions_safe_iff_trap :
    let code : Bytecode := ⟨[0x60, 1, 0x60, 63, 0x1b, 0x5f, 0x19, 0x04], fun _ => 0⟩
    let s := stackCreate 4 (fun _ => 0) zeroMemory
    ∃ n pc m, executeFor code n 0 s.machine = .ok (.inl pc) m ∧
      DividesAt code pc m.stack INT64_MIN (-1) := by
  intro code s
  have hOutcome : outcome (executeFor ⟨[0x60, 1, 0x60, 63, 0x1b, 0x5f, 0x19, 0x04], fun _ => 0⟩ 7 0
      (stackCreate 4 (fun _ => 0) zeroMemory).machine) = .error .trap := by decide +kernel
  have hTrap := eq_error_of_outcome hOutcome
  by_contra hNone
  refine ((divisions_safe_iff code 4 s ?_).mpr ?_).2 7 _ hTrap
  · exact ⟨rfl, rfl, by decide, by decide⟩
  · exact fun n pc m hRun hAt => hNone ⟨n, pc, m, hRun, hAt⟩

end Manhattan.Vm
