import Manhattan.Vm.Execute

/-! # What the cases are made of

Every case but STOP, SLOAD and SSTORE is put together from a few primitives that leave the
storage alone, and none of these ends in a fault. The plain ones among them leave the memory
alone too, and only MLOAD, MSTORE, MSTORE8 and LOG need the others. SLOAD and SSTORE need the
storage primitives as well, and PUSH alone reads through `pc`. A property of all runs is
therefore proved on the primitives and carried to the interpreter by the rules for generated
programs.
-/

namespace Manhattan.Vm

open Library.ExecRules

inductive Primitive : ∀ α : Type, VM α → Prop
  | push (value : Word) : Primitive Unit (stackPush value)
  | pop : Primitive Word stackPop
  | require (depth : Int) (operation : String) : Primitive Unit (require depth operation)
  | casePOP : Primitive Unit casePOP
  | dup (x : Nat) : Primitive Unit (stackDup x)
  | swap (x : Nat) : Primitive Unit (stackSwap x)
  | log (topicCount : Nat) : Primitive Unit (stackLog topicCount)
  | memorySize : Primitive Nat memorySize
  | readMemory (index : Nat) : Primitive Byte (readMemory index)
  | writeMemory (index : Nat) (value : Byte) : Primitive Unit (writeMemory index value)
  | immediate (offset : Nat) : Primitive Unit (emit (.immediate offset))

inductive PlainPrimitive : ∀ α : Type, VM α → Prop
  | push (value : Word) : PlainPrimitive Unit (stackPush value)
  | pop : PlainPrimitive Word stackPop
  | require (depth : Int) (operation : String) : PlainPrimitive Unit (require depth operation)
  | casePOP : PlainPrimitive Unit casePOP
  | dup (x : Nat) : PlainPrimitive Unit (stackDup x)
  | swap (x : Nat) : PlainPrimitive Unit (stackSwap x)
  | memorySize : PlainPrimitive Nat memorySize
  | immediate (offset : Nat) : PlainPrimitive Unit (emit (.immediate offset))

/-- The plain primitives that do not read through `pc`. -/
inductive StackPrimitive : ∀ α : Type, VM α → Prop
  | push (value : Word) : StackPrimitive Unit (stackPush value)
  | pop : StackPrimitive Word stackPop
  | require (depth : Int) (operation : String) : StackPrimitive Unit (require depth operation)
  | casePOP : StackPrimitive Unit casePOP
  | dup (x : Nat) : StackPrimitive Unit (stackDup x)
  | swap (x : Nat) : StackPrimitive Unit (stackSwap x)
  | memorySize : StackPrimitive Nat memorySize

inductive MemoryPrimitive : ∀ α : Type, VM α → Prop
  | log (topicCount : Nat) : MemoryPrimitive Unit (stackLog topicCount)
  | readMemory (index : Nat) : MemoryPrimitive Byte (readMemory index)
  | writeMemory (index : Nat) (value : Byte) : MemoryPrimitive Unit (writeMemory index value)

theorem StackPrimitive.plainPrimitive {α : Type} {m : VM α} (h : StackPrimitive α m) :
    PlainPrimitive α m := by
  cases h with
  | push value => exact .push value
  | pop => exact .pop
  | require depth operation => exact .require depth operation
  | casePOP => exact .casePOP
  | dup x => exact .dup x
  | swap x => exact .swap x
  | memorySize => exact .memorySize

theorem MemoryPrimitive.primitive {α : Type} {m : VM α} (h : MemoryPrimitive α m) :
    Primitive α m := by
  cases h with
  | log topicCount => exact .log topicCount
  | readMemory index => exact .readMemory index
  | writeMemory index value => exact .writeMemory index value

theorem PlainPrimitive.primitive {α : Type} {m : VM α} (h : PlainPrimitive α m) :
    Primitive α m := by
  cases h with
  | push value => exact .push value
  | pop => exact .pop
  | require depth operation => exact .require depth operation
  | casePOP => exact .casePOP
  | dup x => exact .dup x
  | swap x => exact .swap x
  | memorySize => exact .memorySize
  | immediate offset => exact .immediate offset

inductive StoragePrimitive : ∀ α : Type, VM α → Prop
  | sload (key : Word) : StoragePrimitive Unit (emit (.sload key))
  | loaded (key value : Word) : StoragePrimitive Unit (emit (.loaded key value))
  | sstore (key value : Word) : StoragePrimitive Unit (emit (.sstore key value))
  | loadAddress (a : StorageAddress) : StoragePrimitive (Option CellPtr) (loadAddress a)
  | readCell (pointer : CellPtr) : StoragePrimitive Word (readCell pointer)
  | writeCell (pointer : CellPtr) (value : Word) : StoragePrimitive Unit (writeCell pointer value)
  | allocateCell : StoragePrimitive CellPtr allocateCell
  | setAddress (a : StorageAddress) (pointer : CellPtr) :
      StoragePrimitive Unit (setAddress a pointer)

inductive Event.OfStorage : Event → Prop
  | sload (key : Word) : OfStorage (.sload key)
  | loaded (key value : Word) : OfStorage (.loaded key value)
  | sstore (key value : Word) : OfStorage (.sstore key value)
  | storageEntry (index entries : Nat) : OfStorage (.storageEntry index entries)
  | storageCell (pointer : CellPtr) : OfStorage (.storageCell pointer)

theorem StoragePrimitive.keeps {I : Machine → Prop}
    (hEmit : ∀ e : Event, e.OfStorage → Keeps I (fun _ => I) (emit e))
    (hStorage : ∀ (m : Machine) (storage : Storage), I m →
      I { m with stack := { m.stack with storage := storage } })
    {α : Type} {m : VM α} (h : StoragePrimitive α m) : Keeps I (fun _ => I) m := by
  have hGet : Keeps I (fun _ => I) getStack := fun _ hI => hI
  have hModify : ∀ f : Storage → Storage, Keeps I (fun _ => I)
      (modifyStack fun s => { s with storage := f s.storage }) := fun f m hI => hStorage m _ hI
  have hCheck : ∀ pointer, Keeps I (fun _ => I) (checkCell pointer) := fun pointer =>
    (hEmit _ (.storageCell pointer)).bind fun _ => .ite (.pure _) (.throw fun _ hI => hI)
  cases h with
  | sload key => exact hEmit _ (.sload key)
  | loaded key value => exact hEmit _ (.loaded key value)
  | sstore key value => exact hEmit _ (.sstore key value)
  | loadAddress a =>
    cases a with
    | entry index =>
      exact hGet.bind fun _ => (hEmit _ (.storageEntry _ _)).bind fun _ =>
        .ite (.pure _) (.throw fun _ hI => hI)
    | temp pointer => exact .pure _
  | readCell pointer => exact (hCheck pointer).bind fun _ => hGet.bind fun _ => .pure _
  | writeCell pointer value =>
    exact (hCheck pointer).bind fun _ =>
      hModify fun storage => { storage with cells := storage.cells.set pointer.cell value }
  | allocateCell =>
    exact hGet.bind fun _ => (hModify fun storage =>
      { storage with cells := storage.cells ++ [0] }).bind fun _ => .pure _
  | setAddress a pointer =>
    cases a with
    | entry index =>
      exact hModify fun storage => { storage with table := storage.table.set index (some pointer) }
    | temp _ => exact .pure _

/-! ## Invariants of the helpers -/

inductive Event.OfHelper : Event → Prop
  | dataRead (index top : Int) : OfHelper (.dataRead index top)
  | dataWrite (index : Int) : OfHelper (.dataWrite index)
  | memoryRead (index size : Nat) : OfHelper (.memoryRead index size)
  | memoryWrite (index size : Nat) : OfHelper (.memoryWrite index size)
  | log (topicCount : Nat) (data : List Byte) (topics : List Word) :
      OfHelper (.log topicCount data topics)

/-- What keeps `I` through every primitive on the stack and the memory. -/
structure Tolerates (I : Machine → Prop) (E : Halt → Machine → Prop) : Prop where
  emit : ∀ e : Event, e.OfHelper → Keeps I E (emit e)
  modifyStack : ∀ f : Stack → Stack, (∀ s : Stack, (f s).storage = s.storage) →
    Keeps I E (modifyStack f)
  exit : ∀ message m, I m → E (.exit message) m

namespace Tolerates

variable {I : Machine → Prop} {E : Halt → Machine → Prop}

theorem getStack : Keeps I E getStack := fun _ h => h

theorem exitIf (h : Tolerates I E) (c : Prop) [Decidable c] (message : String) :
    Keeps I E (exitIf c message) := .ite (.throw (h.exit message)) (.pure _)

theorem readData (h : Tolerates I E) (index : Int) : Keeps I E (readData index) :=
  getStack.bind fun _ => (h.emit _ (.dataRead _ _)).bind fun _ => .pure _

theorem writeData (h : Tolerates I E) (index : Int) (value : Word) :
    Keeps I E (writeData index value) :=
  (h.emit _ (.dataWrite _)).bind fun _ => h.modifyStack _ fun _ => rfl

theorem setTop (h : Tolerates I E) (top : Int) : Keeps I E (setTop top) :=
  h.modifyStack _ fun _ => rfl

theorem stackPush (h : Tolerates I E) (value : Word) : Keeps I E (stackPush value) :=
  getStack.bind fun _ => (h.exitIf _ _).bind fun _ => (h.setTop _).bind fun _ => h.writeData _ _

theorem stackPop (h : Tolerates I E) : Keeps I E stackPop :=
  getStack.bind fun _ => (h.exitIf _ _).bind fun _ => (h.readData _).bind fun _ =>
    (h.setTop _).bind fun _ => .pure _

theorem stackDup (h : Tolerates I E) (x : Nat) : Keeps I E (stackDup x) := by
  apply getStack.bind fun s => (h.exitIf _ _).bind fun _ => Keeps.bind ?_ fun a => ?_
  · exact .mapM _ fun i _ => h.readData _
  · exact .forM _ fun value _ => h.stackPush value

theorem stackSwap (h : Tolerates I E) (x : Nat) : Keeps I E (stackSwap x) := by
  apply getStack.bind fun s => (h.exitIf _ _).bind fun _ => Keeps.bind ?_ fun a => ?_
  · exact .mapM _ fun i _ => h.readData _
  · exact .forM _ fun i _ => h.writeData _ _

theorem readMemory (h : Tolerates I E) (index : Nat) : Keeps I E (readMemory index) :=
  getStack.bind fun _ => (h.emit _ (.memoryRead _ _)).bind fun _ => .pure _

theorem writeMemory (h : Tolerates I E) (index : Nat) (value : Byte) :
    Keeps I E (writeMemory index value) :=
  getStack.bind fun _ => (h.emit _ (.memoryWrite _ _)).bind fun _ => h.modifyStack _ fun _ => rfl

theorem stackLog (h : Tolerates I E) (topicCount : Nat) : Keeps I E (stackLog topicCount) := by
  apply getStack.bind fun s => (h.exitIf _ _).bind fun _ => h.stackPop.bind fun offset =>
    h.stackPop.bind fun size => Keeps.bind ?_ fun topics => (h.exitIf _ _).bind fun _ =>
    Keeps.bind ?_ fun data => h.emit _ (.log _ _ _)
  · exact .mapM _ fun _ _ => h.stackPop
  · exact .mapM _ fun i _ => getStack.bind fun _ => h.readMemory _

theorem stackPrimitive (h : Tolerates I E) {α : Type} {m : VM α} (hm : StackPrimitive α m) :
    Keeps I E m := by
  cases hm with
  | push value => exact h.stackPush value
  | pop => exact h.stackPop
  | require depth operation => exact getStack.bind fun _ => h.exitIf _ _
  | casePOP => exact getStack.bind fun _ => (h.exitIf _ _).bind fun _ => h.setTop _
  | dup x => exact h.stackDup x
  | swap x => exact h.stackSwap x
  | memorySize => exact getStack.bind fun _ => .pure _

theorem memoryPrimitive (h : Tolerates I E) {α : Type} {m : VM α} (hm : MemoryPrimitive α m) :
    Keeps I E m := by
  cases hm with
  | log topicCount => exact h.stackLog topicCount
  | readMemory index => exact h.readMemory index
  | writeMemory index value => exact h.writeMemory index value

theorem primitive (h : Tolerates I E) (hImmediate : ∀ offset, Keeps I E (Vm.emit (.immediate offset)))
    {α : Type} {m : VM α} (hm : Primitive α m) : Keeps I E m := by
  cases hm with
  | push value => exact h.stackPrimitive (.push value)
  | pop => exact h.stackPrimitive .pop
  | require depth operation => exact h.stackPrimitive (.require depth operation)
  | casePOP => exact h.stackPrimitive .casePOP
  | dup x => exact h.stackPrimitive (.dup x)
  | swap x => exact h.stackPrimitive (.swap x)
  | memorySize => exact h.stackPrimitive .memorySize
  | log topicCount => exact h.memoryPrimitive (.log topicCount)
  | readMemory index => exact h.memoryPrimitive (.readMemory index)
  | writeMemory index value => exact h.memoryPrimitive (.writeMemory index value)
  | immediate offset => exact hImmediate offset

end Tolerates

/-! ## Generated programs -/

/-- Made of primitives that leave the storage alone, and never a fault. -/
abbrev Shaped {α : Type} (m : VM α) : Prop := Generated Primitive (fun e => e ≠ .fault) m

/-- Made of primitives that leave the memory alone as well. -/
abbrev Plain {α : Type} (m : VM α) : Prop := Generated PlainPrimitive (fun e => e ≠ .fault) m

/-- Made of primitives that do not read through `pc` either. -/
abbrev Stacked {α : Type} (m : VM α) : Prop := Generated StackPrimitive (fun e => e ≠ .fault) m

theorem Stacked.plain {α : Type} {m : VM α} (h : Stacked m) : Plain m :=
  Generated.mono (fun _ => StackPrimitive.plainPrimitive) (fun _ => id) h

theorem Plain.shaped {α : Type} {m : VM α} (h : Plain m) : Shaped m :=
  Generated.mono (fun _ => PlainPrimitive.primitive) (fun _ => id) h

abbrev BarePrimitive (α : Type) (m : VM α) : Prop := StackPrimitive α m ∨ MemoryPrimitive α m

theorem BarePrimitive.primitive {α : Type} {m : VM α} (h : BarePrimitive α m) : Primitive α m :=
  h.elim (fun hm => hm.plainPrimitive.primitive) fun hm => hm.primitive

/-- Shaped, and made of primitives that do not read through `pc`. -/
abbrev Bare {α : Type} (m : VM α) : Prop :=
  Generated (fun α m => StackPrimitive α m ∨ MemoryPrimitive α m) (fun e => e ≠ .fault) m

theorem Stacked.bare {α : Type} {m : VM α} (h : Stacked m) : Bare m :=
  Generated.mono (fun _ => .inl) (fun _ => id) h

theorem Bare.shaped {α : Type} {m : VM α} (h : Bare m) : Shaped m :=
  Generated.mono (fun _ => BarePrimitive.primitive) (fun _ => id) h

abbrev ShapedAny {α : Type} (m : VM α) : Prop :=
  Generated (fun α m => Primitive α m ∨ StoragePrimitive α m) (fun _ => True) m

theorem Shaped.any {α : Type} {m : VM α} (h : Shaped m) : ShapedAny m :=
  Generated.mono (fun _ => .inl) (fun _ _ => trivial) h

/-- Made of the primitives `P`, and stopped by `exit` alone. -/
abbrev Exiting (P : ∀ α : Type, VM α → Prop) {α : Type} (m : VM α) : Prop :=
  Generated P (fun e => ∃ message, e = .exit message) m

section Exiting

variable {P Q : ∀ α : Type, VM α → Prop} {α : Type} {m : VM α}

theorem Exiting.mono (hPQ : ∀ {α : Type} (m : VM α), P α m → Q α m) (h : Exiting P m) :
    Exiting Q m := Generated.mono hPQ (fun _ => id) h

theorem Exiting.faultless (h : Exiting P m) : Generated P (fun e => e ≠ .fault) m := by
  refine Generated.mono (fun _ => id) ?_ h
  rintro e ⟨message, rfl⟩
  exact Halt.noConfusion

theorem exiting_exitIf (c : Prop) [Decidable c] (message : String) :
    Exiting P (exitIf c message) := .ite (.throw ⟨message, rfl⟩) (.pure _)

theorem exiting_andBreak (pc : Nat) {body : VM Unit} (h : Exiting P body) :
    Exiting P (andBreak pc body) := .bind h fun _ => .pure _

end Exiting

/-! ## The cases that divide -/

theorem stacked_cDiv (a b : Word) : Stacked (cDiv a b) := .ite (.throw Halt.noConfusion) (.pure _)

theorem stacked_cRem (a b : Word) : Stacked (cRem a b) := .ite (.throw Halt.noConfusion) (.pure _)

theorem stacked_andBreak (pc : Nat) {body : VM Unit} (h : Stacked body) :
    Stacked (andBreak pc body) := .bind h fun _ => .pure _

theorem stacked_arithmeticCase {operation : Word → Word → VM Word}
    (h : ∀ a b, Stacked (operation a b)) : Stacked (arithmeticCase operation) :=
  .bind (.prim .pop) fun _ => .bind (.prim .pop) fun _ => .bind (h _ _) fun _ => .prim (.push _)

theorem stacked_moduloCase (operation : Word → Word → Word) : Stacked (moduloCase operation) :=
  .bind (.prim .pop) fun _ => .bind (.prim .pop) fun _ => .bind (.prim .pop) fun _ =>
    .bind (exiting_exitIf _ _).faultless fun _ => .bind (stacked_cRem _ _) fun _ => .prim (.push _)

theorem stacked_caseDIV : Stacked caseDIV :=
  stacked_arithmeticCase fun _ _ => .bind (exiting_exitIf _ _).faultless fun _ => stacked_cDiv _ _

theorem stacked_caseSDIV : Stacked caseSDIV := by
  refine stacked_arithmeticCase fun a b => .bind (exiting_exitIf _ _).faultless fun _ =>
    .bind (stacked_cDiv _ _) fun result => .ite ?_ (.pure _)
  exact .bind (stacked_cRem _ _) fun _ => .ite
    (.bind (stacked_cRem _ _) fun _ => .bind (stacked_cDiv _ _) fun _ => .pure _) (.pure _)

theorem stacked_caseMOD : Stacked caseMOD :=
  stacked_arithmeticCase fun _ _ => .bind (exiting_exitIf _ _).faultless fun _ => stacked_cRem _ _

theorem stacked_caseSMOD : Stacked caseSMOD := by
  refine stacked_arithmeticCase fun a b => .bind (exiting_exitIf _ _).faultless fun _ =>
    .bind (stacked_cRem _ _) fun result => .ite ?_ (.pure _)
  exact .bind (stacked_cRem _ _) fun _ => .ite
    (.bind (stacked_cDiv _ _) fun _ => .pure _) (.pure _)

/-! ## The other plain cases -/

theorem exiting_arithmeticCase (operation : Word → Word → Word) :
    Exiting StackPrimitive (arithmeticCase fun a b => return operation a b) :=
  .bind (.prim .pop) fun _ => .bind (.prim .pop) fun _ => .bind (.pure _) fun _ => .prim (.push _)

theorem exiting_expLoop (exponent a result : Word) :
    Exiting StackPrimitive (expLoop exponent a result) := by
  induction exponent, a, result using expLoop.induct with
  | case1 exponent a result h a' ih =>
    rw [expLoop, dif_pos h]
    exact .bind (exiting_exitIf _ _) fun _ => .bind (exiting_exitIf _ _) fun _ => ih
  | case2 exponent a result h =>
    rw [expLoop, dif_neg h]
    exact .pure _

theorem exiting_stackPop32 : Exiting StackPrimitive stackPop32 := .bind (.prim .pop) fun _ => .pure _

theorem exiting_caseSIGNEXTEND : Exiting StackPrimitive caseSIGNEXTEND :=
  .bind (.prim (.require _ _)) fun _ => .bind exiting_stackPop32 fun _ =>
    .bind (.prim .pop) fun _ => .ite (.prim (.push _)) (.prim (.push _))

theorem exiting_lowTopCase (name : String) {operation : Word → BitVec 32 → VM Word}
    (h : ∀ a b, Exiting StackPrimitive (operation a b)) :
    Exiting StackPrimitive (lowTopCase name operation) :=
  .bind (.prim (.require _ _)) fun _ => .bind exiting_stackPop32 fun _ =>
    .bind (.prim .pop) fun _ => .bind (h _ _) fun _ => .prim (.push _)

theorem exiting_lowSecondCase (name : String) (operation : Word → BitVec 32 → Word) :
    Exiting StackPrimitive (lowSecondCase name operation) :=
  .bind (.prim (.require _ _)) fun _ => .bind (.prim .pop) fun _ =>
    .bind exiting_stackPop32 fun _ => .prim (.push _)

theorem exiting_unaryCase (name : String) (operation : Word → Word) :
    Exiting StackPrimitive (unaryCase name operation) :=
  .bind (.prim (.require _ _)) fun _ => .bind (.prim .pop) fun _ => .prim (.push _)

theorem exiting_casePUSH (code : Bytecode) (n pc : Nat) :
    Exiting PlainPrimitive (casePUSH code n pc) := by
  induction n generalizing pc with
  | zero => exact .pure _
  | succ n ih =>
    exact .bind (.prim (.immediate pc)) fun _ => .bind (.prim (.push _)) fun _ => ih (pc + 1)

def Opcode.isPlain : Opcode → Bool
  | .stop | .sload | .sstore | .mload | .mstore | .mstore8 | .log _ => false
  | _ => true

def Opcode.divides : Opcode → Bool
  | .div | .sdiv | .mod | .smod | .addmod | .mulmod => true
  | _ => false

theorem exiting_plainCase (code : Bytecode) (pc : Nat) {op : Opcode} (h : op.isPlain = true)
    (hPush : ∀ n, op ≠ .push n) (hDivides : op.divides = false) :
    Exiting StackPrimitive (executeCase code pc op) := by
  cases op with
  | stop | sload | sstore | mload | mstore | mstore8 | log => cases h
  | div | sdiv | mod | smod | addmod | mulmod => cases hDivides
  | add | mul | sub => exact exiting_andBreak pc (exiting_arithmeticCase _)
  | exp =>
    exact exiting_andBreak pc (.bind (.prim .pop) fun _ => .bind (.prim .pop) fun _ =>
      .bind (exiting_expLoop _ _ _) fun _ => .prim (.push _))
  | signextend => exact exiting_andBreak pc exiting_caseSIGNEXTEND
  | lt | gt | slt | sgt | shl | shr | sar =>
    exact exiting_andBreak pc (exiting_lowTopCase _ fun _ _ => .pure _)
  | byte =>
    exact exiting_andBreak pc (exiting_lowTopCase _ fun _ _ =>
      .bind (exiting_exitIf _ _) fun _ => .pure _)
  | eq | and | or | xor => exact exiting_andBreak pc (exiting_lowSecondCase _ _)
  | iszero | not => exact exiting_andBreak pc (exiting_unaryCase _ _)
  | balance => exact exiting_andBreak pc (.prim (.require _ _))
  | pop => exact exiting_andBreak pc (.prim .casePOP)
  | jump => exact .bind (.prim .pop) fun _ => .pure _
  | jumpi => exact .bind exiting_stackPop32 fun _ => .bind (.prim .pop) fun _ => .pure _
  | pc | push0 => exact exiting_andBreak pc (.prim (.push _))
  | msize => exact exiting_andBreak pc (.bind (.prim .memorySize) fun _ => .prim (.push _))
  | jumpdest | skip => exact .pure _
  | push n => exact absurd rfl (hPush n)
  | dup x => exact exiting_andBreak pc (.prim (.dup x))
  | swap x => exact exiting_andBreak pc (.prim (.swap x))
  | invalid opcode => exact .throw ⟨_, rfl⟩

theorem stacked_executeCase (code : Bytecode) (pc : Nat) {op : Opcode} (h : op.isPlain = true)
    (hPush : ∀ n, op ≠ .push n) : Stacked (executeCase code pc op) := by
  cases op with
  | div => exact stacked_andBreak pc stacked_caseDIV
  | sdiv => exact stacked_andBreak pc stacked_caseSDIV
  | mod => exact stacked_andBreak pc stacked_caseMOD
  | smod => exact stacked_andBreak pc stacked_caseSMOD
  | addmod | mulmod => exact stacked_andBreak pc (stacked_moduloCase _)
  | _ => exact (exiting_plainCase code pc h hPush rfl).faultless

theorem plain_executeCase (code : Bytecode) (pc : Nat) {op : Opcode} (h : op.isPlain = true) :
    Plain (executeCase code pc op) := by
  cases op with
  | push n => exact .bind (exiting_casePUSH code n pc).faultless fun _ => .pure _
  | _ => exact (stacked_executeCase code pc h nofun).plain

/-! ## The memory cases -/

theorem exiting_caseMLOAD (pc : Nat) : Exiting BarePrimitive (caseMLOAD pc) :=
  .bind (.prim (.inl .pop)) fun _ => .bind (.prim (.inl .memorySize)) fun _ => .ite (.pure _)
    (.bind (.prim (.inr (.readMemory _))) fun _ => .bind (.prim (.inl (.push _))) fun _ => .pure _)

theorem exiting_storeCase (pc : Nat) (mask : BitVec 32 → BitVec 32) :
    Exiting BarePrimitive (storeCase pc mask) :=
  .bind (exiting_stackPop32.mono fun _ => .inl) fun _ => .bind (.prim (.inl .pop)) fun _ =>
    .bind (.prim (.inl .memorySize)) fun _ => .ite (.pure _)
      (.bind (.prim (.inr (.readMemory _))) fun _ =>
        .bind (.prim (.inr (.writeMemory _ _))) fun _ => .pure _)

theorem bare_executeCase (code : Bytecode) (pc : Nat) {op : Opcode} (hStop : op ≠ .stop)
    (hSload : op ≠ .sload) (hSstore : op ≠ .sstore) (hPush : ∀ n, op ≠ .push n) :
    Bare (executeCase code pc op) := by
  cases op with
  | stop => exact absurd rfl hStop
  | sload => exact absurd rfl hSload
  | sstore => exact absurd rfl hSstore
  | mload => exact (exiting_caseMLOAD pc).faultless
  | mstore | mstore8 => exact (exiting_storeCase pc _).faultless
  | log topicCount => exact .bind (.prim (.inr (.log topicCount))) fun _ => .pure _
  | _ => exact (stacked_executeCase code pc rfl hPush).bare

theorem shaped_executeCase (code : Bytecode) (pc : Nat) {op : Opcode} (hStop : op ≠ .stop)
    (hSload : op ≠ .sload) (hSstore : op ≠ .sstore) : Shaped (executeCase code pc op) := by
  cases op with
  | push n => exact (plain_executeCase code pc rfl).shaped
  | _ => exact (bare_executeCase code pc hStop hSload hSstore nofun).shaped

/-- The cases without a division and without a storage access end with `exit` if at all. -/
theorem exiting_executeCase (code : Bytecode) (pc : Nat) {op : Opcode} (hStop : op ≠ .stop)
    (hSload : op ≠ .sload) (hSstore : op ≠ .sstore) (hDivides : op.divides = false) :
    Exiting Primitive (executeCase code pc op) := by
  cases op with
  | stop => exact absurd rfl hStop
  | sload => exact absurd rfl hSload
  | sstore => exact absurd rfl hSstore
  | mload => exact (exiting_caseMLOAD pc).mono fun _ => BarePrimitive.primitive
  | mstore | mstore8 => exact (exiting_storeCase pc _).mono fun _ => BarePrimitive.primitive
  | log topicCount => exact .bind (.prim (.log topicCount)) fun _ => .pure _
  | push n =>
    exact .bind ((exiting_casePUSH code n pc).mono fun _ => PlainPrimitive.primitive) fun _ => .pure _
  | _ =>
    have hPlain := exiting_plainCase code pc rfl (by nofun) hDivides
    exact hPlain.mono fun _ hm => hm.plainPrimitive.primitive

/-! ## SLOAD and SSTORE -/

abbrev Stored {α : Type} (m : VM α) : Prop := Generated StoragePrimitive (fun _ => True) m

/-- Made of any primitives but those that read through `pc`. -/
abbrev Fetchless {α : Type} (m : VM α) : Prop :=
  Generated (fun α m => StackPrimitive α m ∨ MemoryPrimitive α m ∨ StoragePrimitive α m)
    (fun _ => True) m

theorem Bare.fetchless {α : Type} {m : VM α} (h : Bare m) : Fetchless m :=
  Generated.mono (fun _ hm => hm.imp_right .inl) (fun _ _ => trivial) h

theorem Stored.fetchless {α : Type} {m : VM α} (h : Stored m) : Fetchless m :=
  Generated.mono (fun _ hm => .inr (.inr hm)) (fun _ => id) h

theorem stored_followKey (key : Word) (indices : List Nat) (a : StorageAddress) :
    Stored (followKey key indices a) := by
  induction indices generalizing a with
  | nil => exact .pure _
  | cons i rest ih =>
    apply Generated.bind (.prim (.loadAddress a))
    rintro (_ | pointer)
    · exact .pure _
    · exact ih _

theorem stored_storageLoad (key : Word) : Stored (storageLoad key) := by
  apply Generated.bind (.prim (.sload key)) fun _ => ?_
  apply Generated.bind (stored_followKey _ _ _) fun _ => ?_
  apply Generated.bind (.prim (.loadAddress _))
  rintro (_ | pointer)
  · exact .bind (.prim (.loaded key 0)) fun _ => .pure _
  · exact .bind (.prim (.readCell pointer)) fun value =>
      .bind (.prim (.loaded key value)) fun _ => .pure _

theorem stored_storageStore (key value : Word) : Stored (storageStore key value) := by
  apply Generated.bind (.prim (.sstore key value)) fun _ => ?_
  apply Generated.bind (stored_followKey _ _ _) fun a => ?_
  apply Generated.bind (.prim (.loadAddress a))
  rintro (_ | pointer)
  · exact .bind (.prim .allocateCell) fun pointer =>
      .bind (.prim (.setAddress a pointer)) fun _ => .prim (.writeCell pointer _)
  · exact .prim (.writeCell pointer _)

theorem fetchless_executeCase (code : Bytecode) (pc : Nat) {op : Opcode} (hStop : op ≠ .stop)
    (hPush : ∀ n, op ≠ .push n) : Fetchless (executeCase code pc op) := by
  by_cases hSload : op = .sload
  · subst hSload
    exact .bind (.bind (.prim (.inl .pop)) fun a => .bind (stored_storageLoad a).fetchless fun _ =>
      .prim (.inl (.push _))) fun _ => .pure _
  · by_cases hSstore : op = .sstore
    · subst hSstore
      exact .bind (.bind (.prim (.inl .pop)) fun value => .bind (.prim (.inl .pop)) fun a =>
        (stored_storageStore a value).fetchless) fun _ => .pure _
    · exact (bare_executeCase code pc hStop hSload hSstore hPush).fetchless

theorem Fetchless.any {α : Type} {m : VM α} (h : Fetchless m) : ShapedAny m := by
  refine Generated.mono (fun _ hm => ?_) (fun _ => id) h
  rcases hm with hStack | hMemory | hStorage
  · exact .inl hStack.plainPrimitive.primitive
  · exact .inl hMemory.primitive
  · exact .inr hStorage

theorem Stored.any {α : Type} {m : VM α} (h : Stored m) : ShapedAny m := h.fetchless.any

theorem shapedAny_executeCase (code : Bytecode) (pc : Nat) {op : Opcode} (hStop : op ≠ .stop) :
    ShapedAny (executeCase code pc op) := by
  cases op with
  | push n => exact (plain_executeCase code pc rfl).shaped.any
  | _ => exact (fetchless_executeCase code pc hStop nofun).any

end Manhattan.Vm
