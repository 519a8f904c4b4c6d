import Manhattan.Vm.Cases
import Manhattan.Vm.StorageMap

/-! # Where the pointer walk ends

`keyOffset` is how far `stack_get_storage_address` moves the pointer it found in a table
entry. It is zero for the key 0 alone, so every other key that comes to a used entry
leaves the one-element cell. The outcomes of SLOAD and SSTORE follow, one lemma a case.
-/

namespace Manhattan.Vm

open Library.ExecRules

/-! ## What the walk touches -/

inductive Touch
  | entry (index entries : Nat)
  | cell (pointer : CellPtr)
  deriving DecidableEq

def Event.touch : Event → Option Touch
  | .storageEntry index entries => some (.entry index entries)
  | .storageCell pointer => some (.cell pointer)
  | _ => none

def touches (trace : List Event) : List Touch := trace.filterMap Event.touch

/-! ## The offset -/

def keyOffset (key : Word) : Nat := ((List.range' 1 31).map (addressByte key)).sum

theorem addressByte_low {key : Word} {i : Nat} (hi : i < 8) :
    addressByte key (31 - i) = (key.sshiftRight (8 * i) &&& 0xFF).toNat := by
  have hShift : 8 * (31 - (31 - i)) % 64 = 8 * i := by omega
  rw [addressByte, hShift]

theorem keyOffset_eq_zero {key : Word} (h : keyOffset key = 0) : key = 0 := by
  have hBytes : ∀ i ∈ List.range' 1 31, addressByte key i = 0 := by
    intro i hi
    exact List.sum_eq_zero_iff.mp h _ (List.mem_map_of_mem hi)
  apply BitVec.eq_of_getLsbD_eq
  intro j hj
  have hByte := hBytes (31 - j / 8) (List.mem_range'_1.mpr (by omega))
  rw [addressByte_low (by omega)] at hByte
  have hZero : key.sshiftRight (8 * (j / 8)) &&& 0xFF = 0 := BitVec.eq_of_toNat_eq hByte
  have hBit := congrArg (fun v : Word => v.getLsbD (j % 8)) hZero
  have hSmall : j % 8 < 8 := by omega
  have hIndex : 8 * (j / 8) + j % 8 = j := by omega
  have hMask : (0xFF : Word).getLsbD (j % 8) = true := by
    generalize j % 8 = k at hSmall
    revert k
    decide
  simp only [BitVec.getLsbD_and, BitVec.getLsbD_sshiftRight, hIndex, hMask, Bool.and_true] at hBit
  have hLow : ¬64 ≤ j % 8 := by omega
  simpa [hLow, hj] using hBit

theorem keyOffset_zero : keyOffset 0 = 0 := by decide

theorem followKey_temp (key : Word) (indices : List Nat) (pointer : CellPtr) (m : Machine) :
    followKey key indices (.temp pointer) m =
      .ok (.temp { pointer with offset := pointer.offset + (indices.map (addressByte key)).sum })
        m := by
  induction indices generalizing pointer with
  | nil => rfl
  | cons i rest ih =>
    refine (ih _).trans ?_
    rw [List.map_cons, List.sum_cons, Nat.add_assoc]

def Machine.sawEntry (m : Machine) (index : Nat) : Machine :=
  { m with trace := .storageEntry index m.stack.storage.table.length :: m.trace }

@[simp] theorem Machine.sawEntry_stack (m : Machine) (index : Nat) :
    (m.sawEntry index).stack = m.stack := rfl

theorem loadAddress_entry (index : Nat) (m : Machine) :
    loadAddress (.entry index) m =
      if index < m.stack.storage.table.length then
        .ok (m.stack.storage.table.getD index none) (m.sawEntry index)
      else .error .fault (m.sawEntry index) := by
  by_cases h : index < m.stack.storage.table.length
  · rw [if_pos h]
    exact congrFun (if_pos h) (m.sawEntry index)
  · rw [if_neg h]
    exact congrFun (if_neg h) (m.sawEntry index)

theorem stackGetStorageAddress_outside {key : Word} {m : Machine}
    (h : ¬entryOf key < m.stack.storage.table.length) :
    stackGetStorageAddress key m = .error .fault (m.sawEntry (entryOf key)) :=
  bind_of_error ((loadAddress_entry _ m).trans (if_neg h))

theorem stackGetStorageAddress_unused {key : Word} {m : Machine}
    (hIndex : entryOf key < m.stack.storage.table.length)
    (h : m.stack.storage.table.getD (entryOf key) none = none) :
    stackGetStorageAddress key m = .ok (.entry (entryOf key)) (m.sawEntry (entryOf key)) := by
  have hLoad := (loadAddress_entry (entryOf key) m).trans (if_pos hIndex)
  rw [h] at hLoad
  exact bind_of_ok hLoad

theorem stackGetStorageAddress_used {key : Word} {m : Machine} {pointer : CellPtr}
    (hIndex : entryOf key < m.stack.storage.table.length)
    (h : m.stack.storage.table.getD (entryOf key) none = some pointer) :
    stackGetStorageAddress key m =
      .ok (.temp { pointer with offset := pointer.offset + keyOffset key })
        (m.sawEntry (entryOf key)) := by
  have hLoad := (loadAddress_entry (entryOf key) m).trans (if_pos hIndex)
  rw [h] at hLoad
  have hSplit : keyOffset key =
      addressByte key 1 + ((List.range' 2 30).map (addressByte key)).sum := rfl
  rw [hSplit, ← Nat.add_assoc]
  exact (bind_of_ok hLoad).trans (followKey_temp _ _ _ _)

/-! ## SLOAD -/

theorem storageLoad_outside {key : Word} {m : Machine}
    (h : ¬entryOf key < m.stack.storage.table.length) :
    ∃ m', storageLoad key m = .error .fault m' ∧
      accesses m'.trace = .load key :: accesses m.trace ∧
      touches m'.trace =
        .entry (entryOf key) m.stack.storage.table.length :: touches m.trace := by
  let m₁ : Machine := { m with trace := .sload key :: m.trace }
  have hWalk : stackGetStorageAddress key m₁ = _ := stackGetStorageAddress_outside h
  exact ⟨_, (bind_of_ok rfl).trans (bind_of_error hWalk), rfl, rfl⟩

theorem storageLoad_unused {key : Word} {m : Machine}
    (hIndex : entryOf key < m.stack.storage.table.length)
    (h : m.stack.storage.table.getD (entryOf key) none = none) :
    ∃ m', storageLoad key m = .ok 0 m' ∧ m'.stack = m.stack ∧
      accesses m'.trace = .answer key 0 :: .load key :: accesses m.trace ∧
      touches m'.trace = .entry (entryOf key) m.stack.storage.table.length ::
        .entry (entryOf key) m.stack.storage.table.length :: touches m.trace := by
  let m₁ : Machine := { m with trace := .sload key :: m.trace }
  have hWalk : stackGetStorageAddress key m₁ = _ := stackGetStorageAddress_unused hIndex h
  have hLoad := (loadAddress_entry (entryOf key) (m₁.sawEntry (entryOf key))).trans (if_pos hIndex)
  rw [Machine.sawEntry_stack, show m₁.stack = m.stack from rfl, h] at hLoad
  exact ⟨_, (bind_of_ok rfl).trans ((bind_of_ok hWalk).trans ((bind_of_ok hLoad).trans rfl)), rfl,
    rfl, rfl⟩

theorem storageLoad_away {key : Word} {m : Machine} {c : Nat} (hKey : key ≠ 0)
    (hIndex : entryOf key < m.stack.storage.table.length)
    (h : m.stack.storage.table.getD (entryOf key) none = some ⟨c, 0⟩) :
    ∃ m', storageLoad key m = .error .fault m' ∧
      accesses m'.trace = .load key :: accesses m.trace ∧
      touches m'.trace = .cell ⟨c, keyOffset key⟩ ::
        .entry (entryOf key) m.stack.storage.table.length :: touches m.trace := by
  let m₁ : Machine := { m with trace := .sload key :: m.trace }
  have hWalk : stackGetStorageAddress key m₁ = _ := stackGetStorageAddress_used hIndex h
  rw [Nat.zero_add] at hWalk
  have hAway : ¬keyOffset key = 0 := fun hZero => hKey (keyOffset_eq_zero hZero)
  have hCell : ∀ k : Machine, ∃ k', readCell ⟨c, keyOffset key⟩ k = .error .fault k' ∧
      k'.trace = .storageCell ⟨c, keyOffset key⟩ :: k.trace := fun k =>
    ⟨_, bind_of_error ((bind_of_ok rfl).trans (congrFun (if_neg hAway) _)), rfl⟩
  obtain ⟨m', hRead, hTrace⟩ := hCell (m₁.sawEntry (entryOf key))
  refine ⟨m', (bind_of_ok rfl).trans ((bind_of_ok hWalk).trans ((bind_of_ok rfl).trans
    (bind_of_error hRead))), ?_, ?_⟩ <;> rw [hTrace] <;> rfl

theorem storageLoad_used {m : Machine} {c : Nat} (hIndex : entryOf 0 < m.stack.storage.table.length)
    (h : m.stack.storage.table.getD (entryOf 0) none = some ⟨c, 0⟩) :
    ∃ m', storageLoad 0 m = .ok (m.stack.storage.cells.getD c 0) m' ∧ m'.stack = m.stack ∧
      accesses m'.trace =
        .answer 0 (m.stack.storage.cells.getD c 0) :: .load 0 :: accesses m.trace ∧
      touches m'.trace = .cell ⟨c, 0⟩ ::
        .entry (entryOf 0) m.stack.storage.table.length :: touches m.trace := by
  let m₁ : Machine := { m with trace := .sload 0 :: m.trace }
  have hWalk : stackGetStorageAddress 0 m₁ = _ := stackGetStorageAddress_used hIndex h
  rw [keyOffset_zero] at hWalk
  exact ⟨_, (bind_of_ok rfl).trans ((bind_of_ok hWalk).trans ((bind_of_ok rfl).trans
    (bind_of_ok rfl))), rfl, rfl, rfl⟩

/-! ## SSTORE -/

theorem storageStore_outside {key value : Word} {m : Machine}
    (h : ¬entryOf key < m.stack.storage.table.length) :
    ∃ m', storageStore key value m = .error .fault m' ∧
      accesses m'.trace = .store key value :: accesses m.trace ∧
      touches m'.trace =
        .entry (entryOf key) m.stack.storage.table.length :: touches m.trace := by
  let m₁ : Machine := { m with trace := .sstore key value :: m.trace }
  have hWalk : stackGetStorageAddress key m₁ = _ := stackGetStorageAddress_outside h
  exact ⟨_, (bind_of_ok rfl).trans (bind_of_error hWalk), rfl, rfl⟩

def Storage.fill (s : Storage) (entry : Nat) (value : Word) : Storage where
  table := s.table.set entry (some ⟨s.cells.length, 0⟩)
  cells := s.cells ++ [value]

@[simp] theorem Storage.length_table_fill (s : Storage) (entry : Nat) (value : Word) :
    (s.fill entry value).table.length = s.table.length := List.length_set

@[simp] theorem Storage.length_cells_fill (s : Storage) (entry : Nat) (value : Word) :
    (s.fill entry value).cells.length = s.cells.length + 1 := by simp [Storage.fill]

theorem Storage.entry_fill_self {s : Storage} {entry : Nat} (h : entry < s.table.length)
    (value : Word) : (s.fill entry value).table.getD entry none = some ⟨s.cells.length, 0⟩ := by
  simp [Storage.fill, h]

theorem Storage.entry_fill_ne {entry e : Nat} (h : e ≠ entry) (s : Storage) (value : Word) :
    (s.fill entry value).table.getD e none = s.table.getD e none := by
  simp [Storage.fill, h.symm]

theorem Storage.cell_fill_self (s : Storage) (entry : Nat) (value : Word) :
    (s.fill entry value).cells.getD s.cells.length 0 = value := by
  simp [Storage.fill]

theorem Storage.cell_fill_lt {s : Storage} {c : Nat} (h : c < s.cells.length) (entry : Nat)
    (value : Word) : (s.fill entry value).cells.getD c 0 = s.cells.getD c 0 := by
  simp [Storage.fill, List.getElem?_append_left h]

theorem storageStore_unused {key value : Word} {m : Machine}
    (hIndex : entryOf key < m.stack.storage.table.length)
    (h : m.stack.storage.table.getD (entryOf key) none = none) :
    ∃ m', storageStore key value m = .ok () m' ∧
      m'.stack.storage = m.stack.storage.fill (entryOf key) (lowBits value) ∧
      accesses m'.trace = .store key value :: accesses m.trace ∧
      touches m'.trace = .cell ⟨m.stack.storage.cells.length, 0⟩ ::
        .entry (entryOf key) m.stack.storage.table.length ::
        .entry (entryOf key) m.stack.storage.table.length :: touches m.trace := by
  let m₁ : Machine := { m with trace := .sstore key value :: m.trace }
  have hWalk : stackGetStorageAddress key m₁ = _ := stackGetStorageAddress_unused hIndex h
  have hLoad := (loadAddress_entry (entryOf key) (m₁.sawEntry (entryOf key))).trans (if_pos hIndex)
  rw [Machine.sawEntry_stack, show m₁.stack = m.stack from rfl, h] at hLoad
  refine ⟨_, (bind_of_ok rfl).trans ((bind_of_ok hWalk).trans ((bind_of_ok hLoad).trans
    ((bind_of_ok rfl).trans ((bind_of_ok rfl).trans rfl)))), ?_, rfl, rfl⟩
  have hSet : (m.stack.storage.cells ++ [0]).set m.stack.storage.cells.length (lowBits value) =
      m.stack.storage.cells ++ [lowBits value] := by simp
  exact congrArg (Storage.mk _) hSet

theorem storageStore_away {key value : Word} {m : Machine} {c : Nat} (hKey : key ≠ 0)
    (hIndex : entryOf key < m.stack.storage.table.length)
    (h : m.stack.storage.table.getD (entryOf key) none = some ⟨c, 0⟩) :
    ∃ m', storageStore key value m = .error .fault m' ∧
      accesses m'.trace = .store key value :: accesses m.trace ∧
      touches m'.trace = .cell ⟨c, keyOffset key⟩ ::
        .entry (entryOf key) m.stack.storage.table.length :: touches m.trace := by
  let m₁ : Machine := { m with trace := .sstore key value :: m.trace }
  have hWalk : stackGetStorageAddress key m₁ = _ := stackGetStorageAddress_used hIndex h
  rw [Nat.zero_add] at hWalk
  have hAway : ¬keyOffset key = 0 := fun hZero => hKey (keyOffset_eq_zero hZero)
  have hCell : ∀ k : Machine, ∃ k', writeCell ⟨c, keyOffset key⟩ (lowBits value) k =
      .error .fault k' ∧ k'.trace = .storageCell ⟨c, keyOffset key⟩ :: k.trace := fun k =>
    ⟨_, bind_of_error ((bind_of_ok rfl).trans (congrFun (if_neg hAway) _)), rfl⟩
  obtain ⟨m', hWrite, hTrace⟩ := hCell (m₁.sawEntry (entryOf key))
  refine ⟨m', (bind_of_ok rfl).trans ((bind_of_ok hWalk).trans ((bind_of_ok rfl).trans hWrite)),
    ?_, ?_⟩ <;> rw [hTrace] <;> rfl

theorem storageStore_used {value : Word} {m : Machine} {c : Nat}
    (hIndex : entryOf 0 < m.stack.storage.table.length)
    (h : m.stack.storage.table.getD (entryOf 0) none = some ⟨c, 0⟩) :
    ∃ m', storageStore 0 value m = .ok () m' ∧
      m'.stack.storage = { m.stack.storage with
        cells := m.stack.storage.cells.set c (lowBits value) } ∧
      accesses m'.trace = .store 0 value :: accesses m.trace ∧
      touches m'.trace = .cell ⟨c, 0⟩ ::
        .entry (entryOf 0) m.stack.storage.table.length :: touches m.trace := by
  let m₁ : Machine := { m with trace := .sstore 0 value :: m.trace }
  have hWalk : stackGetStorageAddress 0 m₁ = _ := stackGetStorageAddress_used hIndex h
  rw [keyOffset_zero] at hWalk
  exact ⟨_, (bind_of_ok rfl).trans ((bind_of_ok hWalk).trans ((bind_of_ok rfl).trans
    (bind_of_ok rfl))), rfl, rfl, rfl⟩

/-! ## Whether the walk stays inside -/

def CellPtr.moved (pointer : CellPtr) (key : Word) : CellPtr where
  cell := pointer.cell
  offset := pointer.offset + keyOffset key

/-- The key leads to an unused entry of the table, or to the one element of a used entry's cell. -/
def Storage.Admits (s : Storage) (key : Word) : Prop :=
  entryOf key < s.table.length ∧
    ∀ pointer, s.table.getD (entryOf key) none = some pointer → (pointer.moved key).offset = 0

section Cells

variable {pointer : CellPtr} (value : Word) (m : Machine)

def Machine.sawCell (m : Machine) (pointer : CellPtr) : Machine :=
  { m with trace := .storageCell pointer :: m.trace }

theorem checkCell_inside (h : pointer.offset = 0) :
    checkCell pointer m = .ok () (m.sawCell pointer) := (bind_of_ok rfl).trans (congrFun (if_pos h) _)

theorem checkCell_outside (h : ¬pointer.offset = 0) :
    checkCell pointer m = .error .fault (m.sawCell pointer) :=
  (bind_of_ok rfl).trans (congrFun (if_neg h) _)

theorem readCell_inside (h : pointer.offset = 0) :
    readCell pointer m = .ok (m.stack.storage.cells.getD pointer.cell 0) (m.sawCell pointer) :=
  bind_of_ok (checkCell_inside m h)

theorem readCell_outside (h : ¬pointer.offset = 0) :
    readCell pointer m = .error .fault (m.sawCell pointer) := bind_of_error (checkCell_outside m h)

theorem writeCell_inside (h : pointer.offset = 0) :
    ∃ m', writeCell pointer value m = .ok () m' ∧ m'.trace = (m.sawCell pointer).trace :=
  ⟨_, bind_of_ok (checkCell_inside m h), rfl⟩

theorem writeCell_outside (h : ¬pointer.offset = 0) :
    writeCell pointer value m = .error .fault (m.sawCell pointer) :=
  bind_of_error (checkCell_outside m h)

end Cells

variable {key : Word} {m : Machine} {pointer : CellPtr}

theorem storageLoad_walk (hIndex : entryOf key < m.stack.storage.table.length)
    (hEntry : m.stack.storage.table.getD (entryOf key) none = some pointer) :
    ∃ k : Machine, k.stack = m.stack ∧ accesses k.trace = .load key :: accesses m.trace ∧
      ∀ r, (readCell (pointer.moved key) >>= fun value =>
        emit (.loaded key value) >>= fun _ => pure value) k = r → storageLoad key m = r := by
  let m₁ : Machine := { m with trace := .sload key :: m.trace }
  have hWalk : stackGetStorageAddress key m₁ =
      .ok (.temp (pointer.moved key)) (m₁.sawEntry (entryOf key)) :=
    stackGetStorageAddress_used hIndex hEntry
  exact ⟨m₁.sawEntry (entryOf key), rfl, rfl, fun r hRead =>
    (bind_of_ok rfl).trans ((bind_of_ok hWalk).trans ((bind_of_ok rfl).trans hRead))⟩

theorem storageStore_walk (value : Word) (hIndex : entryOf key < m.stack.storage.table.length)
    (hEntry : m.stack.storage.table.getD (entryOf key) none = some pointer) :
    ∃ k : Machine, accesses k.trace = .store key value :: accesses m.trace ∧
      ∀ r, writeCell (pointer.moved key) (lowBits value) k = r → storageStore key value m = r := by
  let m₁ : Machine := { m with trace := .sstore key value :: m.trace }
  have hWalk : stackGetStorageAddress key m₁ =
      .ok (.temp (pointer.moved key)) (m₁.sawEntry (entryOf key)) :=
    stackGetStorageAddress_used hIndex hEntry
  exact ⟨m₁.sawEntry (entryOf key), rfl, fun r hWrite =>
    (bind_of_ok rfl).trans ((bind_of_ok hWalk).trans ((bind_of_ok rfl).trans hWrite))⟩

theorem storageLoad_of_admits (h : m.stack.storage.Admits key) :
    ∃ v m', storageLoad key m = .ok v m' ∧ m'.stack = m.stack ∧
      accesses m'.trace = .answer key v :: .load key :: accesses m.trace := by
  obtain ⟨hIndex, hPointer⟩ := h
  cases hEntry : m.stack.storage.table.getD (entryOf key) none with
  | none =>
    obtain ⟨m', hRun, hStack, hTrace, _⟩ := storageLoad_unused hIndex hEntry
    exact ⟨0, m', hRun, hStack, hTrace⟩
  | some pointer =>
    obtain ⟨k, hStack, hTrace, hRun⟩ := storageLoad_walk hIndex hEntry
    have hRead := readCell_inside k (hPointer pointer hEntry)
    exact ⟨_, _, hRun _ ((bind_of_ok hRead).trans rfl), hStack,
      congrArg (List.cons (Access.answer key _)) hTrace⟩

theorem storageStore_of_admits (value : Word) (h : m.stack.storage.Admits key) :
    ∃ m', storageStore key value m = .ok () m' ∧
      accesses m'.trace = .store key value :: accesses m.trace := by
  obtain ⟨hIndex, hPointer⟩ := h
  cases hEntry : m.stack.storage.table.getD (entryOf key) none with
  | none =>
    obtain ⟨m', hRun, _, hTrace, _⟩ := @storageStore_unused key value m hIndex hEntry
    exact ⟨m', hRun, hTrace⟩
  | some pointer =>
    obtain ⟨k, hTrace, hRun⟩ := storageStore_walk value hIndex hEntry
    obtain ⟨m', hWrite, hEvents⟩ := writeCell_inside (lowBits value) k (hPointer pointer hEntry)
    refine ⟨m', hRun _ hWrite, ?_⟩
    rw [hEvents]
    exact hTrace

theorem Storage.not_admits {s : Storage} (h : ¬s.Admits key) (hIndex : entryOf key < s.table.length) :
    ∃ pointer, s.table.getD (entryOf key) none = some pointer ∧
      ¬(pointer.moved key).offset = 0 := by
  by_contra hNone
  refine h ⟨hIndex, fun pointer hEntry => ?_⟩
  by_contra hOffset
  exact hNone ⟨pointer, hEntry, hOffset⟩

theorem storageLoad_of_not_admits (h : ¬m.stack.storage.Admits key) :
    ∃ m', storageLoad key m = .error .fault m' ∧
      accesses m'.trace = .load key :: accesses m.trace := by
  obtain hIndex | hOutside := Nat.lt_or_ge (entryOf key) m.stack.storage.table.length
  · obtain ⟨pointer, hEntry, hOffset⟩ := Storage.not_admits h hIndex
    obtain ⟨k, _, hTrace, hRun⟩ := storageLoad_walk hIndex hEntry
    exact ⟨_, hRun _ (bind_of_error (readCell_outside k hOffset)), hTrace⟩
  · obtain ⟨m', hRun, hTrace, _⟩ := storageLoad_outside (not_lt.mpr hOutside)
    exact ⟨m', hRun, hTrace⟩

theorem storageStore_of_not_admits (value : Word) (h : ¬m.stack.storage.Admits key) :
    ∃ m', storageStore key value m = .error .fault m' ∧
      accesses m'.trace = .store key value :: accesses m.trace := by
  obtain hIndex | hOutside := Nat.lt_or_ge (entryOf key) m.stack.storage.table.length
  · obtain ⟨pointer, hEntry, hOffset⟩ := Storage.not_admits h hIndex
    obtain ⟨k, hTrace, hRun⟩ := storageStore_walk value hIndex hEntry
    exact ⟨_, hRun _ (writeCell_outside (lowBits value) k hOffset), hTrace⟩
  · obtain ⟨m', hRun, hTrace, _⟩ := @storageStore_outside key value m (not_lt.mpr hOutside)
    exact ⟨m', hRun, hTrace⟩

end Manhattan.Vm
