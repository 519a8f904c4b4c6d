import Manhattan.Vm.CaseRules

/-! # Postfix programs compute their expression

`Expr.eval` is arithmetic on the integers: results are wrapped to 64 bits, division
truncates, and the two divisions that `idiv` cannot do are errors. A postfix program
leaves the value of its expression above whatever the stack held before.
-/

namespace Manhattan.Vm

open Library.ExecRules

inductive Operation
  | add | sub | mul | div | mod
  deriving DecidableEq

inductive ArithError
  | divisionByZero
  | overflow
  deriving DecidableEq

def wrap64 (x : Int) : Int := x.bmod (2 ^ 64)

def divide (quotient : Int → Int → Int) (x y : Int) : Except ArithError Int :=
  if y = 0 then .error .divisionByZero
  else if x = -2 ^ 63 ∧ y = -1 then .error .overflow
  else .ok (quotient x y)

def Operation.eval : Operation → Int → Int → Except ArithError Int
  | .add, x, y => .ok (wrap64 (x + y))
  | .sub, x, y => .ok (wrap64 (x - y))
  | .mul, x, y => .ok (wrap64 (x * y))
  | .div, x, y => divide Int.tdiv x y
  | .mod, x, y => divide Int.tmod x y

def Operation.opcode : Operation → Byte
  | .add => 0x01
  | .sub => 0x03
  | .mul => 0x02
  | .div => 0x04
  | .mod => 0x06

inductive Expr
  | leaf (c : Byte)
  | node (o : Operation) (left right : Expr)

def Expr.eval : Expr → Except ArithError Int
  | .leaf c => .ok c.toNat
  | .node o left right => do
    let x ← left.eval
    let y ← right.eval
    o.eval x y

def Expr.program : Expr → List Byte
  | .leaf c => [0x60, c]
  | .node o left right => left.program ++ right.program ++ [o.opcode]

def Expr.depth : Expr → Nat
  | .leaf _ => 1
  | .node _ left right => max left.depth (right.depth + 1)

def ArithError.halt : ArithError → Halt
  | .divisionByZero => .exit "Error: Division by zero\n"
  | .overflow => .trap

theorem toInt_eq_zero_iff (b : Word) : b.toInt = 0 ↔ b = 0 := by
  rw [← BitVec.toInt_inj, show (0 : Word).toInt = 0 by decide]

theorem toInt_eq_min_iff (a : Word) : a.toInt = -2 ^ 63 ↔ a = INT64_MIN := by
  rw [← BitVec.toInt_inj, show INT64_MIN.toInt = -2 ^ 63 by decide]

theorem toInt_eq_neg_one_iff (b : Word) : b.toInt = -1 ↔ b = -1 := by
  rw [← BitVec.toInt_inj, show (-1 : Word).toInt = -1 by decide]

def Computes (run : VM Word) (result : Except ArithError Int) : Prop :=
  match result with
  | .ok v => ∃ r : Word, r.toInt = v ∧ ∀ m, run m = .ok r m
  | .error e => ∀ m, run m = .error e.halt m

theorem computes_divide {quotient : Int → Int → Int} {q : Word → Word → Word} {a b : Word}
    (hq : b ≠ 0 → ¬(a = INT64_MIN ∧ b = -1) → (q a b).toInt = quotient a.toInt b.toInt) :
    Computes (do
      exitIf (b = 0) "Error: Division by zero\n"
      if b = 0 ∨ (a = INT64_MIN ∧ b = -1) then throw .trap else return q a b)
      (divide quotient a.toInt b.toInt) := by
  unfold divide
  by_cases hZero : b = 0
  · rw [if_pos ((toInt_eq_zero_iff b).mpr hZero)]
    intro m
    exact bind_of_error ((exitIf_apply _ _ m).trans (if_pos hZero))
  · rw [if_neg (mt (toInt_eq_zero_iff b).mp hZero)]
    simp only [toInt_eq_min_iff, toInt_eq_neg_one_iff]
    have hPass : ∀ m, exitIf (b = 0) "Error: Division by zero\n" m = .ok () m :=
      fun m => (exitIf_apply _ _ m).trans (if_neg hZero)
    by_cases hTrap : a = INT64_MIN ∧ b = -1
    · rw [if_pos hTrap]
      intro m
      refine (bind_of_ok (hPass m)).trans ?_
      rw [if_pos (Or.inr hTrap)]
      rfl
    · rw [if_neg hTrap]
      refine ⟨q a b, hq hZero hTrap, fun m => (bind_of_ok (hPass m)).trans ?_⟩
      rw [if_neg (by rintro (h | h) <;> contradiction)]
      rfl

theorem operation_computes (o : Operation) (a b : Word) :
    ∃ run : Word → Word → VM Word, Computes (run a b) (o.eval a.toInt b.toInt) ∧
      ∀ code pc, executeCase code pc (decode o.opcode) = andBreak pc (arithmeticCase run) := by
  cases o with
  | add => exact ⟨_, ⟨a + b, BitVec.toInt_add a b, fun _ => rfl⟩, fun _ _ => rfl⟩
  | sub => exact ⟨_, ⟨a - b, BitVec.toInt_sub, fun _ => rfl⟩, fun _ _ => rfl⟩
  | mul => exact ⟨_, ⟨a * b, BitVec.toInt_mul a b, fun _ => rfl⟩, fun _ _ => rfl⟩
  | div =>
    refine ⟨_, computes_divide (q := BitVec.sdiv) ?_, fun _ _ => rfl⟩
    intro _ hTrap
    refine BitVec.toInt_sdiv_of_ne_or_ne a b ?_
    exact (not_and_or.mp hTrap)
  | mod => exact ⟨_, computes_divide (q := BitVec.srem) fun _ _ => BitVec.toInt_srem a b, fun _ _ => rfl⟩

/-! ## One turn -/

variable {code : Bytecode} {capacity : Nat} {xs : List Word} {memory : Memory} {storage : Storage}
  {m : Machine} {pc : Nat}

theorem cycle_operation (o : Operation) {a b : Word} (hFetch : code.bytes[pc]? = some o.opcode)
    (h : m.Holds capacity (xs ++ [a, b]) memory storage) :
    match o.eval a.toInt b.toInt with
    | .ok v => ∃ (r : Word) (m' : Machine), r.toInt = v ∧
        cycle code pc m = .ok (.inl (pc + 1)) m' ∧ m'.Holds capacity (xs ++ [r]) memory storage
    | .error e => ∃ m', cycle code pc m = .error e.halt m' := by
  obtain ⟨run, hRun, hCase⟩ := operation_computes o a b
  rw [cycle_of_getElem? hFetch, hCase]
  cases hEval : o.eval a.toInt b.toInt with
  | ok v =>
    rw [hEval] at hRun
    obtain ⟨r, hr, hReturn⟩ := hRun
    obtain ⟨m', hArith, hHolds⟩ := arithmeticCase_holds hReturn (h.fetched pc)
    exact ⟨r, m', hr, andBreak_of_ok hArith _, hHolds⟩
  | error e =>
    rw [hEval] at hRun
    obtain ⟨m', hArith⟩ := arithmeticCase_stops hRun (h.fetched pc)
    exact ⟨m', andBreak_of_error hArith _⟩

theorem cycle_push1 {c : Byte} (hFetch : code.bytes[pc]? = some 0x60)
    (hImmediate : code.bytes[pc + 1]? = some c) (h : m.Holds capacity xs memory storage)
    (hRoom : xs.length < capacity) :
    ∃ m', cycle code pc m = .ok (.inl (pc + 2)) m' ∧
      m'.Holds capacity (xs ++ [c.setWidth 64]) memory storage := by
  obtain ⟨m', hPush, hHolds⟩ := stackPush_holds (c.setWidth 64)
    ((h.fetched pc).trace (.immediate (pc + 1) :: (m.fetched pc).trace)) hRoom
  refine ⟨m', ?_, hHolds⟩
  rw [cycle_of_getElem? hFetch]
  have hCase : casePUSH code 1 (pc + 1) (m.fetched pc) = .ok (pc + 2) m' := by
    rw [casePUSH_succ, Bytecode.read_of_getElem? hImmediate]
    exact bind_of_ok hPush
  exact bind_of_ok hCase

/-! ## Whole programs -/

/-- What the program of an expression does from its first byte: one more item, or the stop
that belongs to the first error. -/
def Runs (code : Bytecode) (capacity : Nat) (xs : List Word) (memory : Memory) (storage : Storage)
    (start finish : Nat) (m : Machine) (result : Except ArithError Int) : Prop :=
  match result with
  | .ok v => ∃ (n : Nat) (r : Word) (m' : Machine), r.toInt = v ∧
      executeFor code n start m = .ok (.inl finish) m' ∧
      m'.Holds capacity (xs ++ [r]) memory storage
  | .error e => ∃ n m', executeFor code n start m = .error e.halt m'

theorem Runs.after {n start middle finish : Nat} {m m' : Machine}
    {result : Except ArithError Int} (hRun : executeFor code n start m = .ok (.inl middle) m')
    (h : Runs code capacity xs memory storage middle finish m' result) :
    Runs code capacity xs memory storage start finish m result := by
  cases result with
  | ok v =>
    obtain ⟨n', r, m'', hr, hRest, hHolds⟩ := h
    exact ⟨n + n', r, m'', hr, (turns_add hRun).trans hRest, hHolds⟩
  | error e =>
    obtain ⟨n', m'', hRest⟩ := h
    exact ⟨n + n', m'', (turns_add hRun).trans hRest⟩

theorem runs_operation (o : Operation) {a b : Word} (hFetch : code.bytes[pc]? = some o.opcode)
    (h : m.Holds capacity (xs ++ [a, b]) memory storage) :
    Runs code capacity xs memory storage pc (pc + 1) m (o.eval a.toInt b.toInt) := by
  have hTurn := cycle_operation o hFetch h
  cases hv : o.eval a.toInt b.toInt with
  | ok v =>
    rw [hv] at hTurn
    obtain ⟨r, m', hr, hReturn, hHolds⟩ := hTurn
    exact ⟨1, r, m', hr, turns_succ_of_inl hReturn, hHolds⟩
  | error e =>
    rw [hv] at hTurn
    obtain ⟨m', hStop⟩ := hTurn
    exact ⟨1, m', turns_succ_of_error hStop⟩

theorem runs_leaf {c : Byte} (hFetch : code.bytes[pc]? = some 0x60)
    (hImmediate : code.bytes[pc + 1]? = some c) (h : m.Holds capacity xs memory storage)
    (hRoom : xs.length < capacity) :
    Runs code capacity xs memory storage pc (pc + 2) m (.ok c.toNat) := by
  obtain ⟨m', hTurn, hHolds⟩ := cycle_push1 hFetch hImmediate h hRoom
  have hValue : (c.setWidth 64 : Word).toInt = (c.toNat : Int) := by
    have hc := c.isLt
    rw [BitVec.toInt_eq_toNat_of_lt (by rw [BitVec.toNat_setWidth]; omega), BitVec.toNat_setWidth]
    omega
  exact ⟨1, _, m', hValue, turns_succ_of_inl hTurn, hHolds⟩

theorem program_runs (e : Expr) (before after : List Byte)
    (hCode : code.bytes = before ++ (e.program ++ after))
    (h : m.Holds capacity xs memory storage) (hRoom : xs.length + e.depth ≤ capacity) :
    Runs code capacity xs memory storage before.length (before.length + e.program.length) m
      e.eval := by
  induction e generalizing before after xs m with
  | leaf c =>
    have hFetch : code.bytes[before.length]? = some 0x60 := by simp [hCode, Expr.program]
    have hImmediate : code.bytes[before.length + 1]? = some c := by simp [hCode, Expr.program]
    exact runs_leaf hFetch hImmediate h (Nat.lt_of_succ_le (by simpa [Expr.depth] using hRoom))
  | node o left right ihLeft ihRight =>
    rw [Expr.depth] at hRoom
    have hCodeLeft : code.bytes =
        before ++ (left.program ++ (right.program ++ ([o.opcode] ++ after))) := by
      simpa [Expr.program] using hCode
    have hCodeRight : code.bytes =
        (before ++ left.program) ++ (right.program ++ ([o.opcode] ++ after)) := by
      simpa [Expr.program] using hCode
    have hLeft := ihLeft _ _ hCodeLeft h (by omega)
    rw [Expr.eval]
    cases hx : left.eval with
    | error e =>
      rw [hx] at hLeft
      exact hLeft
    | ok x =>
      rw [hx] at hLeft
      obtain ⟨n₁, a, m₁, ha, hRun₁, h₁⟩ := hLeft
      have hRight := ihRight _ _ hCodeRight h₁ (by simp; omega)
      rw [List.length_append] at hRight
      cases hy : right.eval with
      | error e =>
        rw [hy] at hRight
        exact hRight.after hRun₁
      | ok y =>
        rw [hy] at hRight
        obtain ⟨n₂, b, m₂, hb, hRun₂, h₂⟩ := hRight
        have hFetch : code.bytes[before.length + left.program.length + right.program.length]? =
            some o.opcode := by
          rw [← List.length_append, ← List.length_append]
          simp [hCode, Expr.program]
        rw [List.append_assoc] at h₂
        have hTurn := runs_operation o hFetch h₂
        have hLength : before.length + (Expr.node o left right).program.length =
            before.length + left.program.length + right.program.length + 1 := by
          simp [Expr.program]
          omega
        rw [ha, hb, ← hLength] at hTurn
        exact (hTurn.after hRun₂).after hRun₁

/-- `execute_bytecode` on the postfix program of an expression returns its value and leaves
the stack, the memory and the storage as they were; a division by zero that comes first
ends in the division-by-zero exit. -/
theorem execute_program (e : Expr) (beyond : Nat → Byte) (capacity : Nat) (s : Stack)
    (hs : s.InRange capacity) (hRoom : s.items.length + e.depth ≤ capacity) :
    match e.eval with
    | .ok v => ∃ (r : Word) (m : Machine), r.toInt = v ∧
        Returns ⟨e.program, beyond⟩ s ⟨.fellOff, r⟩ m ∧ m.stack.items = s.items ∧
        m.stack.top = s.top ∧ m.stack.memory = s.memory ∧ m.stack.storage = s.storage
    | .error .divisionByZero =>
        ∃ m, Halts ⟨e.program, beyond⟩ s (.exit "Error: Division by zero\n") m
    | .error .overflow => True := by
  have hHolds : s.machine.Holds capacity s.items s.memory s.storage := ⟨hs, rfl, rfl, rfl⟩
  have hCode : (⟨e.program, beyond⟩ : Bytecode).bytes = [] ++ (e.program ++ []) := by simp
  have hRuns := program_runs e [] [] hCode hHolds hRoom
  split
  · rename_i v hv
    rw [hv] at hRuns
    obtain ⟨n, r, m, hr, hRun, h⟩ := hRuns
    have hPc : ¬([] : List Byte).length + e.program.length <
        (⟨e.program, beyond⟩ : Bytecode).size := by simp [Bytecode.size]
    obtain ⟨m', hEnd, h'⟩ := cycle_end hPc h
    have hTop : m'.stack.top = s.top := by
      have hs' := length_items hs
      rw [h'.top]
      omega
    exact ⟨r, m', hr, ⟨n + 1, (turns_add hRun).trans (turns_succ_of_inr hEnd)⟩, h'.items, hTop,
      h'.memory, h'.storage⟩
  · rename_i hv
    rw [hv] at hRuns
    obtain ⟨n, m, hRun⟩ := hRuns
    exact ⟨m, n, hRun⟩
  · trivial

/-- (8 - 2) / 3 over the item 5, and 8 / (2 - 2). -/
theorem execute_program_div :
    let e : Expr := .node .div (.node .sub (.leaf 8) (.leaf 2)) (.leaf 3)
    let e' : Expr := .node .div (.leaf 8) (.node .sub (.leaf 2) (.leaf 2))
    let s : Stack := { stackCreate 4 (fun _ => 5) zeroMemory with top := 0 }
    (∃ (r : Word) (m : Machine), r.toInt = 2 ∧
      Returns ⟨e.program, fun _ => 0⟩ s ⟨.fellOff, r⟩ m ∧ m.stack.items = [5] ∧
      m.stack.top = 0 ∧ m.stack.memory = s.memory ∧ m.stack.storage = s.storage) ∧
    ∃ m, Halts ⟨e'.program, fun _ => 0⟩ s (.exit "Error: Division by zero\n") m := by
  intro e e' s
  have hs : s.InRange 4 := ⟨rfl, rfl, by decide, by decide⟩
  exact ⟨execute_program e (fun _ => 0) 4 s hs (by decide),
    execute_program e' (fun _ => 0) 4 s hs (by decide)⟩

end Manhattan.Vm
