import Manhattan.Vm.Contents
import Manhattan.Vm.Shape

/-! # The stack never leaves its cells

`Event.InRange` is what the representation invariant gives for an access. Both hold after
every turn of every run, also of runs that end by `exit`, because every primitive checks
`top` before it moves it.
-/

namespace Manhattan.Vm

open Library.ExecRules

def Event.InRange (capacity : Nat) : Event → Prop
  | .dataRead index top => 0 ≤ index ∧ index < capacity ∧ index ≤ top
  | .dataWrite index => 0 ≤ index ∧ index < capacity
  | _ => True

structure Machine.Safe (capacity : Nat) (m : Machine) : Prop where
  stack : m.stack.InRange capacity
  trace : ∀ e ∈ m.trace, e.InRange capacity

variable {capacity : Nat}

theorem Machine.Safe.accesses {m : Machine} (h : m.Safe capacity) (events : List Event)
    (hEvents : ∀ e ∈ events, e.InRange capacity) :
    Machine.Safe capacity { stack := m.stack, trace := events ++ m.trace } where
  stack := h.stack
  trace e he := (List.mem_append.mp he).elim (hEvents e) (h.trace e)

abbrev KeepsSafe (capacity : Nat) {α : Type} (m : VM α) : Prop :=
  Keeps (Machine.Safe capacity) (fun _ => Machine.Safe capacity) m

theorem keeps_getStack : KeepsSafe capacity getStack := fun _ h => h

theorem keeps_exitIf (c : Prop) [Decidable c] (message : String) :
    KeepsSafe capacity (exitIf c message) := .ite (.throw fun _ h => h) (.pure _)

theorem keeps_emit {e : Event} (he : e.InRange capacity) :
    KeepsSafe capacity (emit e) := fun _ h =>
  h.accesses [e] fun e' he' => by rwa [List.mem_singleton.mp he']

theorem keeps_modifyStack {f : Stack → Stack}
    (hf : ∀ s : Stack, s.InRange capacity → (f s).InRange capacity) :
    KeepsSafe capacity (modifyStack f) := fun m h => ⟨hf m.stack h.stack, h.trace⟩

theorem keeps_stackPush (value : Word) : KeepsSafe capacity (stackPush value) := by
  refine .of_final fun m h => ?_
  rw [stackPush_apply]
  obtain ⟨hSize, hCells, hLower, hUpper⟩ := h.stack
  split
  · exact h
  · rename_i hRoom
    refine ⟨⟨hSize, ?_, ?_, ?_⟩, ?_⟩
    · simpa using hCells
    · change -1 ≤ m.stack.top + 1
      omega
    · change m.stack.top + 1 ≤ m.stack.size - 1
      omega
    · rintro e (_ | ⟨_, he⟩)
      · change 0 ≤ m.stack.top + 1 ∧ m.stack.top + 1 < (capacity : Int)
        omega
      · exact h.trace e he

theorem keeps_stackPop : KeepsSafe capacity stackPop := by
  refine .of_final fun m h => ?_
  rw [stackPop_apply]
  obtain ⟨hSize, hCells, hLower, hUpper⟩ := h.stack
  split
  · exact h
  · refine ⟨⟨hSize, hCells, ?_, ?_⟩, ?_⟩
    · change -1 ≤ m.stack.top - 1
      omega
    · change m.stack.top - 1 ≤ m.stack.size - 1
      omega
    · rintro e (_ | ⟨_, he⟩)
      · change 0 ≤ m.stack.top ∧ m.stack.top < (capacity : Int) ∧ m.stack.top ≤ m.stack.top
        omega
      · exact h.trace e he

theorem keeps_casePOP : KeepsSafe capacity casePOP := by
  refine .of_final fun m h => ?_
  rw [casePOP_apply]
  obtain ⟨hSize, hCells, hLower, hUpper⟩ := h.stack
  split
  · exact h
  · refine ⟨⟨hSize, hCells, ?_, ?_⟩, h.trace⟩
    · change -1 ≤ m.stack.top - 1
      omega
    · change m.stack.top - 1 ≤ m.stack.size - 1
      omega

theorem Machine.Safe.afterReads {m : Machine} (h : m.Safe capacity) (count : Nat)
    (hCount : (count : Int) ≤ m.stack.top + 1) : (m.afterReads count).Safe capacity := by
  obtain ⟨hSize, _, _, hUpper⟩ := h.stack
  refine h.accesses _ ?_
  intro e he
  obtain ⟨i, hi, rfl⟩ := List.mem_map.mp (List.mem_reverse.mp he)
  have hIndex : i < count := List.mem_range.mp hi
  change 0 ≤ m.stack.top - (i : Int) ∧ m.stack.top - (i : Int) < (capacity : Int) ∧
    m.stack.top - (i : Int) ≤ m.stack.top
  omega

theorem keeps_stackDup (x : Nat) : KeepsSafe capacity (stackDup x) := by
  refine .of_final fun m h => ?_
  rw [stackDup_apply]
  split
  · exact h
  · rename_i hDepth
    have hPushes : KeepsSafe capacity
        (((List.range x).map m.stack.fromTop).reverse.forM stackPush) :=
      Keeps.forM _ fun value _ => keeps_stackPush value
    exact hPushes.final (h.afterReads x (by omega))

theorem keeps_stackSwap (x : Nat) : KeepsSafe capacity (stackSwap x) := by
  refine .of_final fun m h => ?_
  rw [stackSwap_apply]
  split
  · exact h
  · rename_i hDepth
    have hReads := h.afterReads (x + 1) (by push_cast; omega)
    rw [forM_writeData]
    obtain ⟨hSize, hCells, hLower, hUpper⟩ := h.stack
    refine ⟨⟨hSize, ?_, hLower, hUpper⟩, ?_⟩
    · rw [← hCells]
      exact length_foldl_set _ _ _ _
    · intro e he
      rcases List.mem_append.mp he with he | he
      · obtain ⟨i, hi, rfl⟩ := List.mem_map.mp (List.mem_reverse.mp he)
        have hIndex : i < x + 1 := List.mem_range.mp hi
        change 0 ≤ m.stack.top - (i : Int) ∧ m.stack.top - (i : Int) < (capacity : Int)
        omega
      · exact hReads.trace e he

theorem keeps_readMemory (index : Nat) : KeepsSafe capacity (readMemory index) :=
  keeps_getStack.bind fun _ => (keeps_emit (by trivial)).bind fun _ => .pure _

theorem keeps_stackLog (topicCount : Nat) : KeepsSafe capacity (stackLog topicCount) := by
  refine keeps_getStack.bind fun s => (keeps_exitIf _ _).bind fun _ =>
    keeps_stackPop.bind fun offset => keeps_stackPop.bind fun size =>
    (Keeps.mapM _ fun _ _ => keeps_stackPop).bind fun topics => (keeps_exitIf _ _).bind fun _ => ?_
  refine (Keeps.mapM _ fun i _ => ?_).bind fun data => keeps_emit (by trivial)
  exact keeps_getStack.bind fun _ => keeps_readMemory _

theorem keeps_primitive {α : Type} (m : VM α) (h : Primitive α m) :
    KeepsSafe capacity m := by
  cases h with
  | push value => exact keeps_stackPush value
  | pop => exact keeps_stackPop
  | require depth operation => exact keeps_getStack.bind fun _ => keeps_exitIf _ _
  | casePOP => exact keeps_casePOP
  | dup x => exact keeps_stackDup x
  | swap x => exact keeps_stackSwap x
  | log topicCount => exact keeps_stackLog topicCount
  | memorySize => exact keeps_getStack.bind fun _ => .pure _
  | readMemory index => exact keeps_readMemory index
  | writeMemory index value =>
    exact keeps_getStack.bind fun _ => (keeps_emit (by trivial)).bind fun _ =>
      keeps_modifyStack fun s h => ⟨h.size, h.cells, h.lower, h.upper⟩
  | immediate offset => exact keeps_emit (by trivial)

theorem keeps_storagePrimitive {α : Type} (m : VM α) (h : StoragePrimitive α m) :
    KeepsSafe capacity m := by
  apply h.keeps
  · rintro e ⟨⟩ <;> exact keeps_emit trivial
  · rintro m storage ⟨⟨hSize, hCells, hLower, hUpper⟩, hTrace⟩
    exact ⟨⟨hSize, hCells, hLower, hUpper⟩, hTrace⟩

theorem keeps_executeCase (code : Bytecode) (pc : Nat) (op : Opcode) :
    KeepsSafe capacity (executeCase code pc op) := by
  by_cases hStop : op = .stop
  · subst hStop
    exact keeps_getStack.bind fun _ => .pure _
  · exact (shapedAny_executeCase code pc hStop).keeps
      (fun m h => h.elim (keeps_primitive m) (keeps_storagePrimitive m)) fun _ _ _ h => h

theorem keeps_cycle (code : Bytecode) (pc : Nat) :
    KeepsSafe capacity (cycle code pc) :=
  .ite ((keeps_emit (by trivial)).bind fun _ => keeps_executeCase code _ _)
    (keeps_stackPop.bind fun _ => .pure _)

theorem keeps_executeFor (code : Bytecode) (n pc : Nat) :
    KeepsSafe capacity (executeFor code n pc) := turns_keeps (keeps_cycle code) n pc

/-- The stack `created` by `stack_create` with anything that earlier runs may have left on it. -/
structure Stack.Reused (created s : Stack) : Prop where
  size : s.size = created.size
  cells : s.data.length = created.data.length
  lower : -1 ≤ s.top
  upper : s.top ≤ s.size - 1

theorem size_stackCreate (hCapacity : capacity < 2 ^ 31) (uninit : Fin capacity → Word)
    (memory : { m : Memory // m.size = 32 }) :
    (stackCreate capacity uninit memory).size = capacity := by
  change (BitVec.ofNat 32 capacity).toInt = capacity
  rw [BitVec.toInt_ofNat']
  exact Int.bmod_eq_of_le (by omega) (by omega)

theorem Stack.Reused.inRange (hCapacity : capacity < 2 ^ 31) {uninit : Fin capacity → Word}
    {memory : { m : Memory // m.size = 32 }} {s : Stack}
    (h : (stackCreate capacity uninit memory).Reused s) : s.InRange capacity where
  size := h.size.trans (size_stackCreate hCapacity uninit memory)
  cells := h.cells.trans (List.length_ofFn)
  lower := h.lower
  upper := h.upper

/-- After every number of turns of every run, and where the run has ended by `exit`, `top`
is in range and every access to the cells was. -/
theorem executeFor_stack_safe (code : Bytecode) (capacity : Nat) (hCapacity : capacity < 2 ^ 31)
    (uninit : Fin capacity → Word) (memory : { m : Memory // m.size = 32 }) (s : Stack)
    (hReused : (stackCreate capacity uninit memory).Reused s) (n : Nat) :
    let m := final (executeFor code n 0 s.machine)
    m.stack.size = capacity ∧ (-1 ≤ m.stack.top ∧ m.stack.top ≤ m.stack.size - 1) ∧
    (∀ index top, .dataRead index top ∈ m.trace →
      0 ≤ index ∧ index < m.stack.size ∧ index ≤ top) ∧
    (∀ index, .dataWrite index ∈ m.trace → 0 ≤ index ∧ index < m.stack.size) := by
  intro m
  have hStart : s.machine.Safe capacity := by
    refine ⟨hReused.inRange hCapacity, ?_⟩
    intro e he
    cases he
  obtain ⟨⟨hSize, hCells, hLower, hUpper⟩, hTrace⟩ := (keeps_executeFor code n 0).final hStart
  refine ⟨hSize, ⟨hLower, hUpper⟩, ?_, ?_⟩
  · intro index top he
    rw [hSize]
    exact hTrace _ he
  · intro index he
    rw [hSize]
    exact hTrace _ he

/-- PUSH1 7, DUP2 on a stack that an earlier run has left one item on. -/
theorem executeFor_stack_safe_dup :
    let s : Stack := { stackCreate 4 (fun _ => 5) zeroMemory with top := 0 }
    let m := final (executeFor ⟨[0x60, 7, 0x81], fun _ => 0⟩ 3 0 s.machine)
    m.stack.size = (4 : Nat) ∧ (-1 ≤ m.stack.top ∧ m.stack.top ≤ m.stack.size - 1) ∧
    (∀ index top, .dataRead index top ∈ m.trace →
      0 ≤ index ∧ index < m.stack.size ∧ index ≤ top) ∧
    (∀ index, .dataWrite index ∈ m.trace → 0 ≤ index ∧ index < m.stack.size) := by
  intro s
  have hReused : (stackCreate 4 (fun _ => 5) zeroMemory).Reused s := ⟨rfl, rfl, by decide, by decide⟩
  exact executeFor_stack_safe _ 4 (by decide) (fun _ => 5) zeroMemory s hReused 3

end Manhattan.Vm
