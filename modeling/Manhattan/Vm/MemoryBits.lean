import Manhattan.Vm.MemorySafety
import Manhattan.Vm.Operands
import Manhattan.Vm.SignExtend

/-! # The bits of the memory

MLOAD, MSTORE and MSTORE8 take an offset in bits and stay within the byte that it lies in. A
store writes the bits from its offset to the end of that byte and no others, so that a load
from an offset inside a byte finds fewer than eight bits of the value.
-/

namespace Manhattan.Vm

open Library.ExecRules Library.WordReadings

def Memory.bit (memory : Memory) (offset : Nat) : Bool :=
  (memory.read (offset / 8)).getLsbD (offset % 8)

/-- The opcode stores v at a: it takes its two operands off and leaves the one memory for the
other, wherever it stands and whatever else the machine holds. -/
def Stores (opcode : Byte) (a v : Word) (memory memory' : Memory) : Prop :=
  ∀ (code : Bytecode) (pc capacity : Nat) (xs : List Word) (storage : Storage),
    code.bytes[pc]? = some opcode →
      Yields (Machine.Holds capacity (xs ++ [a, v]) memory storage) (cycle code pc) (.inl (pc + 1))
        (Machine.Holds capacity xs memory' storage)

/-- MLOAD puts v in the place of the offset a. -/
def Loads (memory : Memory) (a v : Word) : Prop :=
  ∀ (code : Bytecode) (pc capacity : Nat) (xs : List Word) (storage : Storage),
    code.bytes[pc]? = some 0x51 →
      Yields (Machine.Holds capacity (xs ++ [a]) memory storage) (cycle code pc) (.inl (pc + 1))
        (Machine.Holds capacity (xs ++ [v]) memory storage)

/-! ## One byte -/

theorem getLsbD_storeBits (old : Byte) (b : BitVec 32) {bit i : Nat} (hi : i < 8) :
    (storeBits old b bit).getLsbD i = if i < bit then old.getLsbD i else b.getLsbD (i - bit) := by
  have hMask : ∀ k < 8, (0xFF : BitVec 32).getLsbD k = true := by decide
  have hWide : i < 32 := by omega
  simp only [storeBits, BitVec.getLsbD_setWidth, BitVec.getLsbD_or, BitVec.getLsbD_and,
    BitVec.getLsbD_not, BitVec.getLsbD_shiftLeft, hi, hWide, decide_true, Bool.true_and]
  split
  · rename_i hBefore
    simp [hBefore]
  · rename_i hBehind
    rw [hMask (i - bit) (by omega)]
    simp [hBehind]

theorem storeBits_mask (old : Byte) (b : BitVec 32) (bit : Nat) :
    storeBits old (b &&& 0xFF) bit = storeBits old b bit := by
  rw [storeBits, BitVec.and_assoc, BitVec.and_self]
  rfl

def Memory.stored (memory : Memory) (a v : Word) : Memory :=
  memory.write (a.toNat / 8) (storeBits (memory.read (a.toNat / 8)) (v.setWidth 32) (a.toNat % 8))

def Memory.loaded (memory : Memory) (a : Word) : Word :=
  (memory.read (a.toNat / 8) >>> (a.toNat % 8)).setWidth 64

@[simp] theorem Memory.size_stored (memory : Memory) (a v : Word) :
    (memory.stored a v).size = memory.size := List.length_set

theorem Memory.read_stored_ne {memory : Memory} {a : Word} {j : Nat} (h : j ≠ a.toNat / 8)
    (v : Word) : (memory.stored a v).read j = memory.read j := by
  simp [Memory.stored, Memory.read, Memory.write, List.getD_eq_getElem?_getD, h.symm]

theorem Memory.read_stored {memory : Memory} {a : Word} (h : a.toNat / 8 < memory.size) (v : Word) :
    (memory.stored a v).read (a.toNat / 8) =
      storeBits (memory.read (a.toNat / 8)) (v.setWidth 32) (a.toNat % 8) := by
  have hLength : a.toNat / 8 < memory.data.length := h
  simp [Memory.stored, Memory.read, Memory.write, List.getD_eq_getElem?_getD, hLength]

/-- The bits from the offset to the end of its byte are the low bits of the value. -/
theorem Memory.bit_stored {memory : Memory} {a : Word} (h : a.toNat / 8 < memory.size) (v : Word)
    (offset : Nat) :
    (memory.stored a v).bit offset =
      if a.toNat ≤ offset ∧ offset ≤ 8 * (a.toNat / 8) + 7 then v.getLsbD (offset - a.toNat)
      else memory.bit offset := by
  unfold Memory.bit
  obtain hByte | hOther := eq_or_ne (offset / 8) (a.toNat / 8)
  · have hBit : offset % 8 < 8 := Nat.mod_lt _ (by decide)
    rw [hByte, Memory.read_stored h, getLsbD_storeBits _ _ hBit]
    split
    · rw [if_neg (by omega)]
    · rw [if_pos (by omega), BitVec.getLsbD_setWidth,
        show offset % 8 - a.toNat % 8 = offset - a.toNat by omega]
      exact (Bool.and_eq_right_iff_imp.mpr fun _ => decide_eq_true (by omega))
  · rw [Memory.read_stored_ne hOther, if_neg (by omega)]

theorem Memory.loaded_stored_ne {memory : Memory} {a o : Word} (h : o.toNat / 8 ≠ a.toNat / 8)
    (v : Word) : (memory.stored a v).loaded o = memory.loaded o := by
  rw [Memory.loaded, Memory.read_stored_ne h, Memory.loaded]

/-- What comes back is as many low bits as the byte has behind the offset. -/
theorem Memory.toNat_loaded_stored {memory : Memory} {a : Word} (h : a.toNat / 8 < memory.size)
    (v : Word) : ((memory.stored a v).loaded a).toNat = v.toNat % 2 ^ (8 - a.toNat % 8) := by
  apply Nat.eq_of_testBit_eq
  intro i
  rw [Memory.loaded, Memory.read_stored h, BitVec.testBit_toNat, BitVec.getLsbD_setWidth,
    BitVec.getLsbD_ushiftRight, Nat.testBit_mod_two_pow, BitVec.testBit_toNat]
  obtain hInside | hOutside := Nat.lt_or_ge i (8 - a.toNat % 8)
  · rw [getLsbD_storeBits _ _ (by omega), if_neg (by omega), Nat.add_sub_cancel_left,
      BitVec.getLsbD_setWidth]
    simp [hInside, show i < 32 by omega, show i < 64 by omega]
  · rw [BitVec.getLsbD_of_ge _ _ (by omega)]
    simp [hOutside]

/-! ## The cases -/

section Cases

variable {memory : Memory} {storage : Storage} {capacity : Nat} {xs : List Word} {m : Machine}
  {a v : Word}

theorem store_holds (pc : Nat) (hIn : ¬outOfBounds a (memory.size * 8))
    (h : m.Holds capacity xs memory storage) {mask : BitVec 32 → BitVec 32}
    (hMask : ∀ old b bit, storeBits old (mask b) bit = storeBits old b bit) :
    ∃ m', store pc mask a (v.setWidth 32) m = .ok (.inl pc) m' ∧
      m'.Holds capacity xs (memory.stored a v) storage := by
  obtain ⟨⟨hSize, hCells, hLower, hUpper⟩, hItems, rfl, hStorage⟩ := h
  let m' : Machine := {
    stack := { m.stack with memory := m.stack.memory.stored a v }
    trace := .memoryWrite (a.toNat / 8) m.stack.memory.size ::
      .memoryRead (a.toNat / 8) m.stack.memory.size :: m.trace }
  refine ⟨m', ?_, ⟨⟨hSize, hCells, hLower, hUpper⟩, hItems, rfl, hStorage⟩⟩
  have hTest : store pc mask a (v.setWidth 32) m = _ :=
    (bind_of_ok rfl).trans (congrFun (if_neg hIn) m)
  simp only [hTest, hMask]
  rfl

theorem storeCase_holds (pc : Nat) (hIn : ¬outOfBounds a (memory.size * 8))
    (h : m.Holds capacity (xs ++ [a, v]) memory storage) {mask : BitVec 32 → BitVec 32}
    (hMask : ∀ old b bit, storeBits old (mask b) bit = storeBits old b bit) :
    ∃ m', storeCase pc mask m = .ok (.inl pc) m' ∧
      m'.Holds capacity xs (memory.stored a v) storage := by
  obtain ⟨m₁, m₂, hFirst, hSecond, h₂⟩ := stackPop_two h
  obtain ⟨m₃, hStore, h₃⟩ := store_holds pc hIn h₂ hMask
  refine ⟨m₃, ?_, h₃⟩
  rw [storeCase_operands]
  exact (bind_of_ok hFirst).trans ((bind_of_ok hSecond).trans hStore)

theorem storeCase_out (pc : Nat) (hOut : outOfBounds a (memory.size * 8))
    (h : m.Holds capacity (xs ++ [a, v]) memory storage) (mask : BitVec 32 → BitVec 32) :
    ∃ m', storeCase pc mask m = .ok (errorReturn "Error: Offset out of bounds\n" (-1)) m' := by
  obtain ⟨m₁, m₂, hFirst, hSecond, h₂⟩ := stackPop_two h
  obtain rfl := h₂.memory
  refine ⟨m₂, ?_⟩
  rw [storeCase_operands]
  exact (bind_of_ok hFirst).trans ((bind_of_ok hSecond).trans
    ((bind_of_ok rfl).trans (congrFun (if_pos hOut) m₂)))

end Cases

def storeOpcodes : List Byte := [0x52, 0x53]

theorem executeCase_store {opcode : Byte} (hOpcode : opcode ∈ storeOpcodes) (code : Bytecode)
    (pc : Nat) : ∃ mask : BitVec 32 → BitVec 32,
      executeCase code pc (decode opcode) = storeCase pc mask ∧
        ∀ old b bit, storeBits old (mask b) bit = storeBits old b bit := by
  simp only [storeOpcodes, List.mem_cons, List.not_mem_nil, or_false] at hOpcode
  obtain rfl | rfl := hOpcode
  · exact ⟨_, rfl, fun _ _ _ => rfl⟩
  · exact ⟨_, rfl, storeBits_mask⟩

theorem stores_stored {opcode : Byte} (hOpcode : opcode ∈ storeOpcodes) {memory : Memory}
    {a : Word} (hIn : ¬outOfBounds a (memory.size * 8)) (v : Word) :
    Stores opcode a v memory (memory.stored a v) := by
  intro code pc capacity xs storage hFetch m h
  obtain ⟨mask, hCase, hMask⟩ := executeCase_store hOpcode code (pc + 1)
  rw [cycle_of_getElem? hFetch, hCase]
  exact storeCase_holds _ hIn (h.fetched pc) hMask

theorem loadedWord (old : Byte) (bit : Nat) :
    (((old.setWidth 64 >>> bit) &&& (0xFF : Word)).setWidth 32).setWidth 64 =
      (old >>> bit).setWidth 64 := by
  have hMask : ∀ k < 64, (0xFF : Word).getLsbD k = decide (k < 8) := by decide
  refine BitVec.eq_of_getLsbD_eq fun i hi => ?_
  simp only [BitVec.getLsbD_setWidth, BitVec.getLsbD_and, BitVec.getLsbD_ushiftRight, hi,
    decide_true, Bool.true_and, hMask i hi]
  obtain hInside | hOutside := Nat.lt_or_ge i 8
  · simp [hInside, show i < 32 by omega]
    intro hBit
    have hByte := BitVec.lt_of_getLsbD hBit
    omega
  · simp [Nat.not_lt.mpr hOutside, BitVec.getLsbD_of_ge old (bit + i) (by omega)]

theorem loads_loaded {memory : Memory} {a : Word} (hIn : ¬outOfBounds a (memory.size * 8)) :
    Loads memory a (memory.loaded a) := by
  intro code pc capacity xs storage hFetch m h
  have hRoom := h.length_le
  rw [List.length_append, List.length_singleton] at hRoom
  obtain ⟨m₁, hPop, h₁⟩ := stackPop_holds (h.fetched pc)
  obtain ⟨m₂, hPush, h₂⟩ := stackPush_holds (memory.loaded a)
    (h₁.trace (.memoryRead (a.toNat / 8) m₁.stack.memory.size :: m₁.trace)) (by omega)
  refine ⟨m₂, ?_, h₂⟩
  obtain rfl := h₁.memory
  have hTest : cycle code pc m = _ := (cycle_of_getElem? hFetch m).trans
    ((bind_of_ok hPop).trans ((bind_of_ok rfl).trans (congrFun (if_neg hIn) m₁)))
  simp only [hTest, loadedWord]
  exact (bind_of_ok rfl).trans (bind_of_ok hPush)

theorem loads_iff (memory : Memory) (o v : Word) :
    Loads memory o v ↔ ¬outOfBounds o (memory.size * 8) ∧ v = memory.loaded o := by
  let code : Bytecode := ⟨[0x51], fun _ => 0⟩
  have hHolds : Machine.Holds 1 ([] ++ [o]) _ _ _ := holds_memory [o] memory
  constructor
  · intro hLoads
    have hRun := hLoads code 0 1 [] ⟨[], []⟩ rfl
    have hIn : ¬outOfBounds o (memory.size * 8) := by
      intro hOut
      obtain ⟨m', hOk, _⟩ := hRun _ hHolds
      obtain ⟨m₁, hPop, h₁⟩ := stackPop_holds (hHolds.fetched 0)
      obtain rfl := h₁.memory
      have hStop : cycle code 0 _ = _ := (cycle_of_getElem? (b := 0x51) rfl _).trans
        ((bind_of_ok hPop).trans ((bind_of_ok rfl).trans (congrFun (if_pos hOut) m₁)))
      rw [hStop] at hOk
      cases hOk
    obtain ⟨_, m, hm, hm'⟩ := hRun.unique (loads_loaded hIn code 0 1 [] ⟨[], []⟩ rfl) hHolds hHolds
    exact ⟨hIn, List.head_eq_of_cons_eq (hm.items.symm.trans hm'.items)⟩
  · rintro ⟨hIn, rfl⟩
    exact loads_loaded hIn

theorem stores_iff {opcode : Byte} (hOpcode : opcode ∈ storeOpcodes) (a v : Word)
    (memory memory' : Memory) :
    Stores opcode a v memory memory' ↔
      ¬outOfBounds a (memory.size * 8) ∧ memory' = memory.stored a v := by
  let code : Bytecode := ⟨[opcode], fun _ => 0⟩
  have hHolds : Machine.Holds 2 ([] ++ [a, v]) _ _ _ := holds_memory [a, v] memory
  constructor
  · intro hStores
    have hRun := hStores code 0 2 [] ⟨[], []⟩ rfl
    have hIn : ¬outOfBounds a (memory.size * 8) := by
      intro hOut
      obtain ⟨m', hOk, _⟩ := hRun _ hHolds
      obtain ⟨mask, hCase, _⟩ := executeCase_store hOpcode code 1
      obtain ⟨_, hReturn⟩ := storeCase_out 1 hOut (hHolds.fetched 0) mask
      rw [cycle_of_getElem? (b := opcode) rfl, hCase, hReturn] at hOk
      cases hOk
    obtain ⟨_, m, hm, hm'⟩ :=
      hRun.unique (stores_stored hOpcode hIn v code 0 2 [] ⟨[], []⟩ rfl) hHolds hHolds
    exact ⟨hIn, hm.memory.symm.trans hm'.memory⟩
  · rintro ⟨hIn, rfl⟩
    exact stores_stored hOpcode hIn v

/-! ## In range -/

/-- Of the offsets that lie in the block the test refuses those that the product
`memory->size * 8` wraps below. -/
theorem not_outOfBounds_iff {a : Word} {size : Nat} (hLower : 0 ≤ a.toInt)
    (hUpper : a.toInt < 8 * size) :
    ¬outOfBounds a (size * 8) ↔ (2 ^ 61 ≤ size → a.toNat < size * 8 % 2 ^ 64) := by
  have hNat := toInt_eq_toNat hLower
  unfold outOfBounds
  omega

/-- After the store MLOAD puts w in the place of the offset. -/
def ReadsBack (opcode : Byte) (memory : Memory) (a v w : Word) : Prop :=
  ∃ memory', Stores opcode a v memory memory' ∧ Loads memory' a w

theorem readsBack_iff {opcode : Byte} (hOpcode : opcode ∈ storeOpcodes) (memory : Memory)
    (a v w : Word) :
    ReadsBack opcode memory a v w ↔
      ¬outOfBounds a (memory.size * 8) ∧ w = (memory.stored a v).loaded a := by
  constructor
  · rintro ⟨memory', hStores, hLoads⟩
    obtain ⟨hIn, rfl⟩ := (stores_iff hOpcode a v memory memory').mp hStores
    exact ⟨hIn, ((loads_iff _ a w).mp hLoads).2⟩
  · rintro ⟨hIn, hValue⟩
    refine ⟨_, stores_stored hOpcode hIn v, (loads_iff _ a w).mpr ⟨?_, hValue⟩⟩
    rwa [Memory.size_stored]

/-- What was stored at an offset of the block is read back if and only if it has no more bits than the
byte has from the offset on, and the test of the offset does not wrap. -/
theorem load_after_store_iff {opcode : Byte} (hOpcode : opcode ∈ storeOpcodes) {memory : Memory}
    {a : Word} (hLower : 0 ≤ a.toInt) (hUpper : a.toInt < 8 * memory.size) (v : Word) :
    ReadsBack opcode memory a v (v &&& 0xFF) ↔
      (2 ^ 61 ≤ memory.size → a.toNat < memory.size * 8 % 2 ^ 64) ∧
        v.toNat % 256 < 2 ^ (8 - a.toNat % 8) := by
  rw [readsBack_iff hOpcode, not_outOfBounds_iff hLower hUpper]
  refine and_congr_right fun hRange => ?_
  have hByte := div_eight_lt_of_not_outOfBounds ((not_outOfBounds_iff hLower hUpper).mpr hRange)
  have hLow : (v &&& 0xFF).toNat = v.toNat % 256 := toNat_and_low v (show 8 ≤ 64 by decide)
  have hDvd : 2 ^ (8 - a.toNat % 8) ∣ 256 := Nat.pow_dvd_pow 2 (show 8 - a.toNat % 8 ≤ 8 by omega)
  rw [← BitVec.toNat_inj, Memory.toNat_loaded_stored hByte, hLow, ← Nat.mod_mod_of_dvd _ hDvd,
    eq_comm, mod_eq_self_iff (Nat.two_pow_pos _)]

/-- 127 has the seven bits that are left from offset 1 on. -/
theorem load_after_store_iff_seven_bits : ReadsBack 0x53 zeroMemory.val 1 127 127 :=
  (load_after_store_iff (by decide) (by decide) (by decide) 127).mpr (by decide)

/-- PUSH1 1, PUSH1 1, PUSH1 255, MSTORE or MSTORE8, MLOAD: 127 instead of 255. -/
theorem load_after_store_loses_bit :
    let run (opcode : Byte) := executeFor ⟨[0x60, 1, 0x60, 1, 0x60, 255, opcode, 0x51], fun _ => 0⟩ 5
      0 (stackCreate 4 (fun _ => 0) zeroMemory).machine
    ((final (run 0x52)).stack.items = [127] ∧ (final (run 0x53)).stack.items = [127]) ∧
      ¬ReadsBack 0x52 zeroMemory.val 1 255 (255 &&& 0xFF) ∧
      ¬ReadsBack 0x53 zeroMemory.val 1 255 (255 &&& 0xFF) := by
  refine ⟨⟨by decide +kernel, by decide +kernel⟩, ?_, ?_⟩
  · rw [readsBack_iff (by decide)]
    decide +kernel
  · rw [readsBack_iff (by decide)]
    decide +kernel

/-- A store within the block changes the bits from its offset to the end of the byte, to the low
bits of the value, and nothing else. -/
theorem store_local {opcode : Byte} (hOpcode : opcode ∈ storeOpcodes) {memory : Memory} {a : Word}
    (hIn : ¬outOfBounds a (memory.size * 8)) (v : Word) :
    ∃ memory' : Memory, Stores opcode a v memory memory' ∧
      memory'.base = memory.base ∧ memory'.size = memory.size ∧
      (∀ offset, memory'.bit offset =
        if a.toNat ≤ offset ∧ offset ≤ 8 * (a.toNat / 8) + 7 then v.getLsbD (offset - a.toNat)
        else memory.bit offset) ∧
      ∀ o w : Word, o.toNat / 8 ≠ a.toNat / 8 → (Loads memory' o w ↔ Loads memory o w) := by
  refine ⟨memory.stored a v, stores_stored hOpcode hIn v, rfl, Memory.size_stored memory a v,
    Memory.bit_stored (div_eight_lt_of_not_outOfBounds hIn) v, fun o w hOther => ?_⟩
  rw [loads_iff, loads_iff, Memory.size_stored, Memory.loaded_stored_ne hOther]

theorem store_local_last :
    ∃ memory' : Memory, Stores 0x52 255 1 zeroMemory.val memory' ∧
      memory'.base = zeroMemory.val.base ∧ memory'.size = 32 ∧
      (∀ offset, memory'.bit offset =
        if 255 ≤ offset ∧ offset ≤ 255 then (1 : Word).getLsbD (offset - 255)
        else zeroMemory.val.bit offset) ∧
      ∀ o w : Word, o.toNat / 8 ≠ 31 → (Loads memory' o w ↔ Loads zeroMemory.val o w) :=
  store_local (a := 255) (by decide) (by decide) 1

end Manhattan.Vm
