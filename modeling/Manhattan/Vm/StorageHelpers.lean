import Manhattan.Vm.Machine

/-! # The storage table

`stack_get_storage_address` follows 32 key bytes from a table entry, but every pointer
after the first is the address of its own local `temp_address`. The unoptimised build
leaves that local as it was when the function returns, so the caller reads the pointer
last stored there; the model does the same.
-/

namespace Manhattan.Vm

/-- An `int64_t**`: `&stack->storage[index]`, or `&temp_address` with the pointer it holds. -/
inductive StorageAddress
  | entry (index : Nat)
  | temp (pointer : CellPtr)
  deriving DecidableEq

/-- `address[i]`. Shift counts from 64 on are taken modulo 64, as `sar` takes them. -/
def addressByte (key : Word) (i : Nat) : Nat :=
  (key.sshiftRight (8 * (31 - i) % 64) &&& 0xFF).toNat

def loadAddress : StorageAddress → VM (Option CellPtr)
  | .entry index => do
    let s ← getStack
    emit (.storageEntry index s.storage.table.length)
    if index < s.storage.table.length then return s.storage.table.getD index none
    else throw .fault
  | .temp pointer => return some pointer

/-- The loop over `address[1..31]`, left at the first NULL. -/
def followKey (key : Word) : List Nat → StorageAddress → VM StorageAddress
  | [], storageAddress => return storageAddress
  | i :: rest, storageAddress => do
    match ← loadAddress storageAddress with
    | none => return storageAddress
    | some pointer =>
      followKey key rest (.temp { pointer with offset := pointer.offset + addressByte key i })

def stackGetStorageAddress (key : Word) : VM StorageAddress :=
  followKey key (List.range' 1 31) (.entry (addressByte key 0))

/-- `**storage_address`: only index 0 of a cell is inside its allocation. -/
def checkCell (pointer : CellPtr) : VM Unit := do
  emit (.storageCell pointer)
  if pointer.offset = 0 then pure () else throw .fault

def readCell (pointer : CellPtr) : VM Word := do
  checkCell pointer
  let s ← getStack
  return s.storage.cells.getD pointer.cell 0

def writeCell (pointer : CellPtr) (value : Word) : VM Unit := do
  checkCell pointer
  modifyStack fun s => { s with storage.cells := s.storage.cells.set pointer.cell value }

/-- `malloc(sizeof(int64_t))`, taken to succeed. -/
def allocateCell : VM CellPtr := do
  let s ← getStack
  modifyStack fun s => { s with storage.cells := s.storage.cells ++ [0] }
  return { cell := s.storage.cells.length, offset := 0 }

def setAddress (storageAddress : StorageAddress) (pointer : CellPtr) : VM Unit :=
  match storageAddress with
  | .entry index =>
    modifyStack fun s => { s with storage.table := s.storage.table.set index (some pointer) }
  | .temp _ => pure ()

end Manhattan.Vm
