import Mathlib

/-! # The data of the bytecode executor

The structures of `vm.c` and the state its helpers run on. `stack->data` and
`stack->top` are kept apart as in the source: the cells are the malloc'd block, the
top is an `int` index into it. Every access to the cells, to the memory block, to
the storage table and to the bytecode through `pc` is recorded in a trace.
-/

namespace Manhattan.Vm

abbrev Byte := BitVec 8

abbrev Word := BitVec 64

/-- `Memory`: the block `data` of `size` bytes at the address `base`. Like every C
object it does not reach past the top of the address space. -/
structure Memory where
  base : Word
  data : List Byte
  fits : base.toNat + data.length < 2 ^ 64

namespace Memory

def size (m : Memory) : Nat := m.data.length

def read (m : Memory) (index : Nat) : Byte := m.data.getD index 0

def write (m : Memory) (index : Nat) (value : Byte) : Memory where
  base := m.base
  data := m.data.set index value
  fits := by simpa using m.fits

end Memory

/-- An `int64_t*`: a malloc'd one-element cell and an index added to its address. -/
structure CellPtr where
  cell : Nat
  offset : Nat
  deriving DecidableEq

/-- `stack->storage` with the cells that SSTORE allocated for its entries. -/
structure Storage where
  table : List (Option CellPtr)
  cells : List Word
  deriving DecidableEq

structure Stack where
  size : Int
  top : Int
  data : List Word
  memory : Memory
  storage : Storage

/-- `stack_create` when every malloc succeeds. Malloc leaves the cells and the memory
bytes as it finds them, so both are arguments. -/
def stackCreate (initialCapacity : Nat) (uninit : Fin initialCapacity → Word)
    (memory : { m : Memory // m.size = 32 }) : Stack where
  size := (BitVec.ofNat 32 initialCapacity).toInt
  top := -1
  data := List.ofFn uninit
  memory := memory.val
  storage := { table := List.replicate (memory.val.size / 8) none, cells := [] }

/-- A memory block of 32 zero bytes at the address 0x1000. -/
def zeroMemory : { m : Memory // m.size = 32 } :=
  ⟨⟨0x1000, List.replicate 32 0, by decide⟩, by decide⟩

/-- What one executed instruction does that a caller, a debugger or the user sees. -/
inductive Event
  /-- `*pc++` at the head of the loop -/
  | fetch (offset : Nat)
  /-- `*(pc++)` in the PUSH case -/
  | immediate (offset : Nat)
  /-- `stack->data[index]` read while `stack->top` is `top` -/
  | dataRead (index top : Int)
  | dataWrite (index : Int)
  | memoryRead (index size : Nat)
  | memoryWrite (index size : Nat)
  /-- `stack->storage[index]` in a table of `entries` pointers -/
  | storageEntry (index entries : Nat)
  /-- a dereferenced `int64_t*` into a one-element cell -/
  | storageCell (pointer : CellPtr)
  /-- SLOAD has popped its key, and later found a value -/
  | sload (key : Word)
  | loaded (key value : Word)
  /-- SSTORE has popped its value, all 64 bits of it, and its key -/
  | sstore (key value : Word)
  | log (topicCount : Nat) (data : List Byte) (topics : List Word)
  deriving DecidableEq

/-- How a run ends without returning: `exit(1)` after a message, the arithmetic trap of
`idiv`, or an access outside an object, after which C defines nothing. -/
inductive Halt
  | exit (message : String)
  | trap
  | fault
  deriving DecidableEq

/-- The stack that `execute_bytecode` works on and its trace, newest event first. -/
structure Machine where
  stack : Stack
  trace : List Event

abbrev VM := EStateM Halt Machine

def getStack : VM Stack := fun m => .ok m.stack m

def modifyStack (f : Stack → Stack) : VM Unit := fun m => .ok () { m with stack := f m.stack }

def emit (e : Event) : VM Unit := fun m => .ok () { m with trace := e :: m.trace }

def exit {α : Type} (message : String) : VM α := throw (.exit message)

def exitIf (c : Prop) [Decidable c] (message : String) : VM Unit :=
  if c then exit message else pure ()

theorem exitIf_apply (c : Prop) [Decidable c] (message : String) (m : Machine) :
    exitIf c message m = if c then .error (.exit message) m else .ok () m := by
  unfold exitIf
  split <;> rfl

theorem exitIf_bind {α : Type} (c : Prop) [Decidable c] (message : String) (k : Unit → VM α)
    (m : Machine) :
    (exitIf c message >>= k) m = if c then .error (.exit message) m else k () m := by
  unfold exitIf
  split <;> rfl

def readData (index : Int) : VM Word := do
  let s ← getStack
  emit (.dataRead index s.top)
  return s.data.getD index.toNat 0

def writeData (index : Int) (value : Word) : VM Unit := do
  emit (.dataWrite index)
  modifyStack fun s => { s with data := s.data.set index.toNat value }

theorem readData_apply (index : Int) (m : Machine) :
    readData index m = .ok (m.stack.data.getD index.toNat 0)
      { m with trace := .dataRead index m.stack.top :: m.trace } := rfl

theorem writeData_apply (index : Int) (value : Word) (m : Machine) :
    writeData index value m = .ok () {
      stack := { m.stack with data := m.stack.data.set index.toNat value }
      trace := .dataWrite index :: m.trace } := rfl

def setTop (top : Int) : VM Unit := modifyStack fun s => { s with top := top }

def memorySize : VM Nat := do
  let s ← getStack
  return s.memory.size

def readMemory (index : Nat) : VM Byte := do
  let s ← getStack
  emit (.memoryRead index s.memory.size)
  return s.memory.read index

def writeMemory (index : Nat) (value : Byte) : VM Unit := do
  let s ← getStack
  emit (.memoryWrite index s.memory.size)
  modifyStack fun s => { s with memory := s.memory.write index value }

end Manhattan.Vm
