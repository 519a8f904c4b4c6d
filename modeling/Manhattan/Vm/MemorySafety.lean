import Manhattan.Vm.Shape

/-! # The memory block is never left

MLOAD, MSTORE and MSTORE8 compare a bit offset with eight times the size, LOG compares two
pointers that may have wrapped around. Both checks keep every access to the block inside it,
because the block does not move and does not grow.
-/

namespace Manhattan.Vm

open Library.ExecRules

def Event.InBlock (size : Nat) : Event → Prop
  | .memoryRead index size' => index < size ∧ size' = size
  | .memoryWrite index size' => index < size ∧ size' = size
  | _ => True

structure Machine.Guarded (memory : Memory) (m : Machine) : Prop where
  base : m.stack.memory.base = memory.base
  size : m.stack.memory.size = memory.size
  trace : ∀ e ∈ m.trace, e.InBlock memory.size

variable {memory : Memory}

abbrev KeepsGuarded (memory : Memory) {α : Type} (m : VM α) : Prop :=
  Keeps (Machine.Guarded memory) (fun _ => Machine.Guarded memory) m

theorem guarded_getStack {α : Type} {f : Stack → VM α}
    (h : ∀ s : Stack, s.memory.base = memory.base → s.memory.size = memory.size →
      KeepsGuarded memory (f s)) : KeepsGuarded memory (getStack >>= f) :=
  fun m hm => h m.stack hm.base hm.size m hm

theorem guarded_exitIf (c : Prop) [Decidable c] (message : String) :
    KeepsGuarded memory (exitIf c message) := .ite (.throw fun _ h => h) (.pure _)

theorem guarded_emit {e : Event} (he : e.InBlock memory.size) :
    KeepsGuarded memory (emit e) := by
  rintro m ⟨hBase, hSize, hTrace⟩
  refine ⟨hBase, hSize, ?_⟩
  rintro e' (_ | ⟨_, he'⟩)
  · exact he
  · exact hTrace e' he'

theorem guarded_modifyStack {f : Stack → Stack} (hBase : ∀ s, (f s).memory.base = s.memory.base)
    (hSize : ∀ s, (f s).memory.size = s.memory.size) :
    KeepsGuarded memory (modifyStack f) := fun m h =>
  ⟨(hBase m.stack).trans h.base, (hSize m.stack).trans h.size, h.trace⟩

theorem guarded_readData (index : Int) : KeepsGuarded memory (readData index) :=
  guarded_getStack fun _ _ _ => (guarded_emit (by trivial)).bind fun _ => .pure _

theorem guarded_writeData (index : Int) (value : Word) :
    KeepsGuarded memory (writeData index value) :=
  (guarded_emit (by trivial)).bind fun _ => guarded_modifyStack (fun _ => rfl) fun _ => rfl

theorem guarded_setTop (top : Int) : KeepsGuarded memory (setTop top) :=
  guarded_modifyStack (fun _ => rfl) fun _ => rfl

/-! ## What does not access the block -/

theorem guarded_stackPush (value : Word) : KeepsGuarded memory (stackPush value) :=
  guarded_getStack fun _ _ _ => (guarded_exitIf _ _).bind fun _ => (guarded_setTop _).bind fun _ =>
    guarded_writeData _ _

theorem guarded_stackPop : KeepsGuarded memory stackPop :=
  guarded_getStack fun _ _ _ => (guarded_exitIf _ _).bind fun _ => (guarded_readData _).bind
    fun _ => (guarded_setTop _).bind fun _ => .pure _

theorem guarded_stackPop32 : KeepsGuarded memory stackPop32 :=
  guarded_stackPop.bind fun _ => .pure _

theorem guarded_plainPrimitive {α : Type} (m : VM α) (h : PlainPrimitive α m) :
    KeepsGuarded memory m := by
  cases h with
  | push value => exact guarded_stackPush value
  | pop => exact guarded_stackPop
  | require depth operation => exact guarded_getStack fun _ _ _ => guarded_exitIf _ _
  | casePOP => exact guarded_getStack fun _ _ _ => (guarded_exitIf _ _).bind fun _ => guarded_setTop _
  | dup x =>
    exact guarded_getStack fun _ _ _ => (guarded_exitIf _ _).bind fun _ =>
      (Keeps.mapM _ fun _ _ => guarded_readData _).bind fun _ =>
      Keeps.forM _ fun value _ => guarded_stackPush value
  | swap x =>
    exact guarded_getStack fun _ _ _ => (guarded_exitIf _ _).bind fun _ =>
      (Keeps.mapM _ fun _ _ => guarded_readData _).bind fun _ =>
      Keeps.forM _ fun _ _ => guarded_writeData _ _
  | memorySize => exact guarded_getStack fun _ _ _ => .pure _
  | immediate offset => exact guarded_emit (by trivial)

theorem guarded_storagePrimitive {α : Type} (m : VM α) (h : StoragePrimitive α m) :
    KeepsGuarded memory m := by
  apply h.keeps
  · rintro e ⟨⟩ <;> exact guarded_emit (by trivial)
  · rintro m storage ⟨hBase, hSize, hTrace⟩
    exact ⟨hBase, hSize, hTrace⟩

theorem guarded_stored {α : Type} {m : VM α} (h : Stored m) : KeepsGuarded memory m :=
  h.keeps guarded_storagePrimitive fun _ _ _ h => h

/-! ## What does -/

theorem guarded_readMemory {index : Nat} (h : index < memory.size) :
    KeepsGuarded memory (readMemory index) :=
  guarded_getStack fun _ _ hSize => (guarded_emit (by exact ⟨h, hSize⟩)).bind fun _ => .pure _

theorem guarded_writeMemory {index : Nat} (h : index < memory.size) (value : Byte) :
    KeepsGuarded memory (writeMemory index value) := by
  apply guarded_getStack
  intro s _ hSize
  apply (guarded_emit (by exact ⟨h, hSize⟩)).bind
  intro _
  apply guarded_modifyStack
  · intro s
    rfl
  · intro s
    exact List.length_set

theorem div_eight_lt_of_not_outOfBounds {a : Word} {size : Nat}
    (h : ¬outOfBounds a (size * 8)) : a.toNat / 8 < size := by
  have hBelow : a.toNat < size * 8 % 2 ^ 64 := Nat.lt_of_not_le fun hLe => h (.inr hLe)
  have hLimit := Nat.mod_le (size * 8) (2 ^ 64)
  omega

theorem guarded_memorySize {α : Type} {f : Nat → VM α} (h : KeepsGuarded memory (f memory.size)) :
    KeepsGuarded memory (memorySize >>= f) := by
  intro m hm
  change Leaves _ _ (f m.stack.memory.size m)
  rw [hm.size]
  exact h m hm

theorem guarded_caseMLOAD (pc : Nat) : KeepsGuarded memory (caseMLOAD pc) := by
  apply guarded_stackPop.bind
  intro a
  apply guarded_memorySize
  split
  · exact .pure _
  · rename_i hIn
    exact (guarded_readMemory (div_eight_lt_of_not_outOfBounds hIn)).bind fun _ =>
      (guarded_stackPush _).bind fun _ => .pure _

theorem guarded_storeCase (pc : Nat) (mask : BitVec 32 → BitVec 32) :
    KeepsGuarded memory (storeCase pc mask) := by
  apply guarded_stackPop32.bind
  intro b
  apply guarded_stackPop.bind
  intro a
  apply guarded_memorySize
  split
  · exact .pure _
  · rename_i hIn
    have hIndex := div_eight_lt_of_not_outOfBounds hIn
    exact (guarded_readMemory hIndex).bind fun _ => (guarded_writeMemory hIndex _).bind fun _ =>
      .pure _

/-- The pointers of the loop of LOG lie between the two that were compared, and there neither
the difference to the base nor the end of the block wraps around. -/
theorem sub_base_lt {base memoryData memoryEnd : Word} {size i : Nat}
    (hFits : base.toNat + size < 2 ^ 64)
    (hGuard : ¬(memoryData < base ∨ base + BitVec.ofNat 64 size < memoryEnd))
    (hi : i < memoryEnd.toNat - memoryData.toNat) :
    (memoryData + BitVec.ofNat 64 i - base).toNat < size := by
  have hData : base.toNat ≤ memoryData.toNat := by
    by_contra hBelow
    exact hGuard (.inl (BitVec.lt_def.mpr (Nat.lt_of_not_le hBelow)))
  have hEnd : memoryEnd.toNat ≤ base.toNat + size := by
    by_contra hAbove
    apply hGuard
    right
    rw [BitVec.lt_def, BitVec.toNat_add, BitVec.toNat_ofNat]
    omega
  have hLast := memoryEnd.isLt
  rw [BitVec.toNat_sub, BitVec.toNat_add, BitVec.toNat_ofNat]
  omega

theorem guarded_readRange {memoryData memoryEnd : Word}
    (hGuard : ¬(memoryData < memory.base ∨
      memory.base + BitVec.ofNat 64 memory.size < memoryEnd)) :
    KeepsGuarded memory (readRange memoryData memoryEnd) := by
  apply Keeps.mapM
  intro i hi
  apply guarded_getStack
  intro s hBase _
  apply guarded_readMemory
  rw [hBase]
  exact sub_base_lt memory.fits hGuard (List.mem_range.mp hi)

theorem guarded_stackLog (topicCount : Nat) : KeepsGuarded memory (stackLog topicCount) := by
  apply guarded_getStack
  intro s hBase hSize
  refine (guarded_exitIf _ _).bind fun _ => guarded_stackPop.bind fun offset =>
    guarded_stackPop.bind fun size => (Keeps.mapM _ fun _ _ => guarded_stackPop).bind
    fun topics => ?_
  rw [hBase, hSize]
  intro m hm
  rw [exitIf_bind]
  split
  · exact hm
  · rename_i hGuard
    exact ((guarded_readRange hGuard).bind fun data => guarded_emit (by trivial)) m hm

/-! ## Runs -/

theorem guarded_executeCase (code : Bytecode) (pc : Nat) (op : Opcode) :
    KeepsGuarded memory (executeCase code pc op) := by
  cases op with
  | stop => exact guarded_getStack fun _ _ _ => .pure _
  | sload =>
    exact (guarded_stackPop.bind fun a => (guarded_stored (stored_storageLoad a)).bind fun _ =>
      guarded_stackPush _).bind fun _ => .pure _
  | sstore =>
    exact (guarded_stackPop.bind fun value => guarded_stackPop.bind fun a =>
      guarded_stored (stored_storageStore a value)).bind fun _ => .pure _
  | mload => exact guarded_caseMLOAD pc
  | mstore | mstore8 => exact guarded_storeCase pc _
  | log topicCount => exact (guarded_stackLog topicCount).bind fun _ => .pure _
  | _ =>
    exact (plain_executeCase code pc rfl).keeps guarded_plainPrimitive fun _ _ _ h => h

theorem guarded_cycle (code : Bytecode) (pc : Nat) : KeepsGuarded memory (cycle code pc) :=
  .ite ((guarded_emit (by trivial)).bind fun _ => guarded_executeCase code _ _)
    (guarded_stackPop.bind fun _ => .pure _)

theorem guarded_executeFor (code : Bytecode) (n pc : Nat) :
    KeepsGuarded memory (executeFor code n pc) := turns_keeps (guarded_cycle code) n pc

/-- After every number of turns of every run, and where the run has ended, the block is where
it was, as large as it was, and every access to it lay inside. -/
theorem executeFor_memory_safe (code : Bytecode) (s : Stack) (n : Nat) :
    let m := final (executeFor code n 0 s.machine)
    m.stack.memory.base = s.memory.base ∧ m.stack.memory.size = s.memory.size ∧
    (∀ index size, .memoryRead index size ∈ m.trace → index < size ∧ size = s.memory.size) ∧
    (∀ index size, .memoryWrite index size ∈ m.trace → index < size ∧ size = s.memory.size) := by
  intro m
  have hStart : s.machine.Guarded s.memory := by
    refine ⟨rfl, rfl, ?_⟩
    rintro e ⟨⟩
  obtain ⟨hBase, hSize, hTrace⟩ := (guarded_executeFor code n 0).final hStart
  refine ⟨hBase, hSize, ?_, ?_⟩
  · intro index size he
    obtain ⟨hIndex, rfl⟩ := hTrace _ he
    exact ⟨hIndex, rfl⟩
  · intro index size he
    obtain ⟨hIndex, rfl⟩ := hTrace _ he
    exact ⟨hIndex, rfl⟩

/-- PUSH1 255, PUSH1 7, MSTORE: the last bit offset of 32 bytes is accepted. -/
example :
    let s := stackCreate 4 (fun _ => 0) zeroMemory
    let m := final (executeFor ⟨[0x60, 255, 0x60, 7, 0x52], fun _ => 0⟩ 3 0 s.machine)
    .memoryWrite 31 32 ∈ m.trace := by
  decide +kernel

end Manhattan.Vm
