import Manhattan.Library.ExecRules
import Manhattan.Vm.Machine

/-! # The stack helpers

`stack_push`, `stack_pop`, `stack_dup`, `stack_swap` and `stack_LOG`, with the checks
they make themselves and the texts they exit with.
-/

namespace Manhattan.Vm

open Library.ExecRules

def stackPush (value : Word) : VM Unit := do
  let s ← getStack
  exitIf (s.top ≥ s.size - 1) "Stack overflow! Increase the stack size.\n"
  setTop (s.top + 1)
  writeData (s.top + 1) value

def stackPop : VM Word := do
  let s ← getStack
  exitIf (s.top < 0) "POP: Stack underflow!\n"
  let value ← readData s.top
  setTop (s.top - 1)
  return value

theorem stackPush_apply (value : Word) (m : Machine) :
    stackPush value m =
      if m.stack.top ≥ m.stack.size - 1 then
        .error (.exit "Stack overflow! Increase the stack size.\n") m
      else .ok () {
        stack := { m.stack with
          top := m.stack.top + 1
          data := m.stack.data.set (m.stack.top + 1).toNat value }
        trace := .dataWrite (m.stack.top + 1) :: m.trace } := (bind_of_ok rfl).trans (exitIf_bind _ _ _ m)

theorem stackPop_apply (m : Machine) :
    stackPop m =
      if m.stack.top < 0 then .error (.exit "POP: Stack underflow!\n") m
      else .ok (m.stack.data.getD m.stack.top.toNat 0) {
        stack := { m.stack with top := m.stack.top - 1 }
        trace := .dataRead m.stack.top m.stack.top :: m.trace } := (bind_of_ok rfl).trans (exitIf_bind _ _ _ m)

def stackDup (x : Nat) : VM Unit := do
  let s ← getStack
  exitIf (s.top < (x : Int) - 1) ("DUP" ++ toString x ++ ": Stack underflow!\n")
  let a ← (List.range x).mapM fun i : Nat => readData (s.top - i)
  a.reverse.forM stackPush

def stackSwap (x : Nat) : VM Unit := do
  let s ← getStack
  exitIf (s.top < x) ("SWAP" ++ toString x ++ ": Stack underflow!\n")
  let a ← (List.range (x + 1)).mapM fun i : Nat => readData (s.top - i)
  (List.range (x + 1)).forM fun i : Nat => writeData (s.top - i) (a.getD (x - i) 0)

/-- `*ptr` for a pointer into the memory block; an address below the block wraps to an
index far above it. -/
def readAddress (ptr : Word) : VM Byte := do
  let s ← getStack
  readMemory (ptr - s.memory.base).toNat

/-- The bytes printed by `for (ptr = memory_data; ptr < memory_end; ptr++)`. -/
def readRange (memoryData memoryEnd : Word) : VM (List Byte) :=
  (List.range (memoryEnd.toNat - memoryData.toNat)).mapM fun i =>
    readAddress (memoryData + BitVec.ofNat 64 i)

def stackLog (topicCount : Nat) : VM Unit := do
  let s ← getStack
  exitIf (s.top + 1 < (topicCount : Int) + 2)
    ("LOG" ++ toString topicCount ++ ": Stack underflow!\n")
  let offset ← stackPop
  let size ← stackPop
  let topics ← (List.range topicCount).mapM fun _ => stackPop
  let base := s.memory.base
  let memoryData := base + offset
  let memoryEnd := memoryData + size
  exitIf (memoryData < base ∨ base + BitVec.ofNat 64 s.memory.size < memoryEnd)
    "Memory access out of bounds for LOGx.\n"
  let data ← readRange memoryData memoryEnd
  emit (.log topicCount data topics)

/-! ## The loops of the helpers -/

theorem mapM_readData (indices : List Nat) (top : Int) (m : Machine) :
    (indices.mapM fun i : Nat => readData (top - (i : Int))) m =
      .ok (indices.map fun i : Nat => m.stack.data.getD (top - (i : Int)).toNat 0) {
        stack := m.stack
        trace := (indices.map fun i : Nat =>
          Event.dataRead (top - (i : Int)) m.stack.top).reverse ++ m.trace } := by
  induction indices generalizing m with
  | nil => rfl
  | cons i rest ih =>
    rw [List.mapM_cons]
    refine (bind_of_ok (readData_apply _ _)).trans ((bind_of_ok (ih _)).trans ?_)
    simp only [List.map_cons, List.reverse_cons, List.append_assoc, List.cons_append,
      List.nil_append]
    rfl

theorem forM_writeData (indices : List Nat) (top : Int) (value : Nat → Word) (m : Machine) :
    (indices.forM fun i : Nat => writeData (top - (i : Int)) (value i)) m =
      .ok () {
        stack := { m.stack with
          data := indices.foldl (fun d (i : Nat) => d.set (top - (i : Int)).toNat (value i)) m.stack.data }
        trace := (indices.map fun i : Nat => Event.dataWrite (top - (i : Int))).reverse ++ m.trace } := by
  induction indices generalizing m with
  | nil => rfl
  | cons i rest ih =>
    refine (bind_of_ok (writeData_apply _ _ _)).trans ((ih _).trans ?_)
    simp only [List.map_cons, List.reverse_cons, List.append_assoc, List.cons_append,
      List.nil_append, List.foldl_cons]

theorem length_foldl_set (indices : List Nat) (f : Nat → Nat) (value : Nat → Word)
    (data : List Word) :
    (indices.foldl (fun d i => d.set (f i) (value i)) data).length = data.length := by
  induction indices generalizing data with
  | nil => rfl
  | cons i rest ih => rw [List.foldl_cons, ih, List.length_set]

def stackClear (s : Stack) : Stack := { s with top := -1 }

def Stack.fromTop (s : Stack) (i : Nat) : Word := s.data.getD (s.top - (i : Int)).toNat 0

def Machine.afterReads (m : Machine) (count : Nat) : Machine where
  stack := m.stack
  trace := ((List.range count).map fun i : Nat =>
    Event.dataRead (m.stack.top - (i : Int)) m.stack.top).reverse ++ m.trace

theorem stackDup_apply (x : Nat) (m : Machine) :
    stackDup x m =
      if m.stack.top < (x : Int) - 1 then
        .error (.exit ("DUP" ++ toString x ++ ": Stack underflow!\n")) m
      else ((List.range x).map m.stack.fromTop).reverse.forM stackPush (m.afterReads x) := by
  apply (bind_of_ok rfl).trans
  rw [exitIf_bind]
  split
  · rfl
  · exact bind_of_ok (mapM_readData _ _ m)

theorem stackSwap_apply (x : Nat) (m : Machine) :
    stackSwap x m =
      if m.stack.top < (x : Int) then
        .error (.exit ("SWAP" ++ toString x ++ ": Stack underflow!\n")) m
      else (List.range (x + 1)).forM (fun i : Nat => writeData (m.stack.top - (i : Int))
        (((List.range (x + 1)).map m.stack.fromTop).getD (x - i) 0)) (m.afterReads (x + 1)) := by
  apply (bind_of_ok rfl).trans
  rw [exitIf_bind]
  split
  · rfl
  · exact bind_of_ok (mapM_readData _ _ m)

end Manhattan.Vm
