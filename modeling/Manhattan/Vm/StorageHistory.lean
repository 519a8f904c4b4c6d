import Manhattan.Vm.Boundaries
import Manhattan.Vm.CaseRules
import Manhattan.Vm.Quiet
import Manhattan.Vm.StorageWalk

/-! # The history of a run

What SLOAD and SSTORE ask the storage for is read off the items they find, and what an SLOAD is
answered off the item it leaves. On a stack with room the recorded accesses are this history, so that
properties of the record are properties of the items.
-/

namespace Manhattan.Vm

open Library.ExecRules

/-- The access of the instruction at `pc`, where there is one and it finds its operands. -/
def asked (code : Bytecode) (pc : Nat) (s : Stack) : List Access :=
  if pc < code.size then
    match decode (code.read pc) with
    | .sload => if 0 ≤ s.top then [.load (s.fromTop 0)] else []
    | .sstore => if 1 ≤ s.top then [.store (s.fromTop 1) (s.fromTop 0)] else []
    | _ => []
  else []

/-- What lies on top after an SLOAD answers for the key that lay there before. -/
def answered (code : Bytecode) (pc : Nat) (before after : Stack) : List Access :=
  if pc < code.size ∧ decode (code.read pc) = .sload then
    [.answer (before.fromTop 0) (after.fromTop 0)]
  else []

def turnHistory (code : Bytecode) (pc : Nat) (m : Machine) : List Access :=
  match cycle code pc m with
  | .ok _ m' => answered code pc m.stack m'.stack ++ asked code pc m.stack
  | .error _ _ => asked code pc m.stack

/-- The accesses of the first `n` turns from `pc`, newest first. -/
def storageHistory (code : Bytecode) : Nat → Nat → Machine → List Access
  | 0, _, _ => []
  | n + 1, pc, m =>
    match cycle code pc m with
    | .ok (.inl pc') m' => storageHistory code n pc' m' ++ turnHistory code pc m
    | _ => turnHistory code pc m

/-! ## Room on the stack -/

/-- Where `top` is an index, it is one of a cell. -/
structure Stack.Roomy (s : Stack) : Prop where
  cells : s.size ≤ s.data.length
  top : s.top < s.size ∨ s.top < 0

def Machine.Roomy (m : Machine) : Prop := m.stack.Roomy

theorem Stack.Roomy.withData {s : Stack} (h : s.Roomy) {data : List Word}
    (hLength : data.length = s.data.length) : Stack.Roomy { s with data := data } :=
  ⟨hLength ▸ h.cells, h.top⟩

theorem Stack.Roomy.withTop {s : Stack} (h : s.Roomy) {top : Int} (hTop : top < s.size ∨ top < 0) :
    Stack.Roomy { s with top := top } := ⟨h.cells, hTop⟩

theorem Stack.Roomy.below {s : Stack} (h : s.Roomy) :
    Stack.Roomy { s with top := s.top - 1 } := by
  apply h.withTop
  have hTop := h.top
  omega

abbrev KeepsRoomy {α : Type} (m : VM α) : Prop :=
  Keeps Machine.Roomy (fun _ => Machine.Roomy) m

theorem keepsRoomy_emit (e : Event) : KeepsRoomy (emit e) := fun _ h => h

theorem keepsRoomy_exitIf (c : Prop) [Decidable c] (message : String) :
    KeepsRoomy (exitIf c message) := .ite (.throw fun _ h => h) (.pure _)

theorem keepsRoomy_stackPush (value : Word) : KeepsRoomy (stackPush value) := by
  refine .of_final fun m h => ?_
  rw [stackPush_apply]
  split
  · exact h
  · rename_i hRoom
    have hTop : m.stack.top + 1 < m.stack.size := by omega
    exact (h.withTop (.inl hTop)).withData List.length_set

theorem keepsRoomy_stackPop : KeepsRoomy stackPop := by
  refine .of_final fun m h => ?_
  rw [stackPop_apply]
  split
  · exact h
  · exact h.below

theorem keepsRoomy_casePOP : KeepsRoomy casePOP := by
  refine .of_final fun m h => ?_
  rw [casePOP_apply]
  split
  · exact h
  · exact h.below

theorem keepsRoomy_stackDup (x : Nat) : KeepsRoomy (stackDup x) := by
  refine .of_final fun m h => ?_
  rw [stackDup_apply]
  split
  · exact h
  · have hPushes : KeepsRoomy (((List.range x).map m.stack.fromTop).reverse.forM stackPush) :=
      Keeps.forM _ fun value _ => keepsRoomy_stackPush value
    exact hPushes.final h

theorem keepsRoomy_stackSwap (x : Nat) : KeepsRoomy (stackSwap x) := by
  refine .of_final fun m h => ?_
  rw [stackSwap_apply]
  split
  · exact h
  · rw [forM_writeData]
    exact h.withData (length_foldl_set _ _ _ _)

theorem keepsRoomy_readMemory (index : Nat) : KeepsRoomy (readMemory index) := fun _ h => h

theorem keepsRoomy_stackLog (topicCount : Nat) : KeepsRoomy (stackLog topicCount) := by
  have hGet : KeepsRoomy getStack := fun _ h => h
  refine hGet.bind fun s => (keepsRoomy_exitIf _ _).bind fun _ =>
    keepsRoomy_stackPop.bind fun offset => keepsRoomy_stackPop.bind fun size =>
    (Keeps.mapM _ fun _ _ => keepsRoomy_stackPop).bind fun topics =>
    (keepsRoomy_exitIf _ _).bind fun _ => ?_
  refine (Keeps.mapM _ fun i _ => ?_).bind fun data => keepsRoomy_emit _
  exact hGet.bind fun _ => keepsRoomy_readMemory _

theorem keepsRoomy_primitive {α : Type} (m : VM α) (h : Primitive α m) : KeepsRoomy m := by
  cases h with
  | push value => exact keepsRoomy_stackPush value
  | pop => exact keepsRoomy_stackPop
  | require depth operation => exact Keeps.bind (fun _ h => h) fun _ => keepsRoomy_exitIf _ _
  | casePOP => exact keepsRoomy_casePOP
  | dup x => exact keepsRoomy_stackDup x
  | swap x => exact keepsRoomy_stackSwap x
  | log topicCount => exact keepsRoomy_stackLog topicCount
  | memorySize => exact fun _ h => h
  | readMemory index => exact keepsRoomy_readMemory index
  | writeMemory index value => exact fun _ h => ⟨h.cells, h.top⟩
  | immediate offset => exact keepsRoomy_emit _

theorem keepsRoomy_executeCase (code : Bytecode) (pc : Nat) (op : Opcode) :
    KeepsRoomy (executeCase code pc op) := by
  by_cases hStop : op = .stop
  · subst hStop
    exact fun _ h => h
  · refine (shapedAny_executeCase code pc hStop).keeps (fun m hm => ?_) fun _ _ _ h => h
    rcases hm with hPlain | hStorage
    · exact keepsRoomy_primitive m hPlain
    · exact hStorage.keeps (fun e _ => keepsRoomy_emit e) fun _ _ h => ⟨h.cells, h.top⟩

theorem keepsRoomy_cycle (code : Bytecode) (pc : Nat) : KeepsRoomy (cycle code pc) :=
  .ite ((keepsRoomy_emit _).bind fun _ => keepsRoomy_executeCase code _ _)
    (keepsRoomy_stackPop.bind fun _ => .pure _)

theorem keepsRoomy_executeFor (code : Bytecode) (n pc : Nat) : KeepsRoomy (executeFor code n pc) :=
  turns_keeps (keepsRoomy_cycle code) n pc

theorem keepsRoomy_stackClear : KeepsRoomy (modifyStack stackClear) := fun _ h =>
  h.withTop (.inr (by decide))

theorem roomy_stackCreate {capacity : Nat} (uninit : Fin capacity → Word)
    (memory : { m : Memory // m.size = 32 }) :
    (stackCreate capacity uninit memory).machine.Roomy := by
  refine ⟨?_, .inr (by decide : (-1 : Int) < 0)⟩
  have hSize : (stackCreate capacity uninit memory).size ≤ capacity := by
    change (BitVec.ofNat 32 capacity).toInt ≤ capacity
    rw [BitVec.toInt_eq_toNat_cond]
    have hMod : (BitVec.ofNat 32 capacity).toNat ≤ capacity := by
      rw [BitVec.toNat_ofNat]
      exact Nat.mod_le _ _
    split <;> omega
  have hCells : (stackCreate capacity uninit memory).data.length = capacity := List.length_ofFn
  change (stackCreate capacity uninit memory).size ≤ (stackCreate capacity uninit memory).data.length
  rw [hCells]
  exact hSize

/-! ## The recorded accesses -/

theorem Quiet.accesses_final {α : Type} {p : VM α} (h : Quiet p) (m : Machine) :
    accesses (final (p m)).trace = accesses m.trace := by
  have hRun := h m m (.refl m)
  cases hEq : p m with
  | ok a m' =>
    rw [hEq] at hRun
    exact hRun.accesses
  | error e m' =>
    rw [hEq] at hRun
    exact hRun.2.accesses

theorem storageStore_accesses (key value : Word) (m : Machine) :
    accesses (final (storageStore key value m)).trace = .store key value :: accesses m.trace := by
  by_cases hAdmits : m.stack.storage.Admits key
  · obtain ⟨m', hRun, hTrace⟩ := storageStore_of_admits value hAdmits
    rw [hRun]
    exact hTrace
  · obtain ⟨m', hRun, hTrace⟩ := storageStore_of_not_admits value hAdmits
    rw [hRun]
    exact hTrace

/-- A pushed item is found on top again, also in the cell that an item was just taken from. -/
theorem stackPush_over {m k : Machine} (h : m.Roomy) (hTop : 0 ≤ m.stack.top)
    (hStack : k.stack = { m.stack with top := m.stack.top - 1 }) (value : Word) :
    ∃ k', stackPush value k = .ok () k' ∧ k'.stack.fromTop 0 = value := by
  obtain ⟨hCells, hUpper⟩ := h
  have hRoom : ¬k.stack.top ≥ k.stack.size - 1 := by
    rw [hStack]
    change ¬m.stack.top - 1 ≥ m.stack.size - 1
    omega
  refine ⟨_, (stackPush_apply value k).trans (if_neg hRoom), ?_⟩
  have hIndex : m.stack.top.toNat < m.stack.data.length := by omega
  simp only [Stack.fromTop, hStack, Nat.cast_zero, sub_zero, sub_add_cancel]
  simp [hIndex]

/-! ## One turn -/

section Turn

variable {code : Bytecode} {pc : Nat} {m : Machine}

theorem caseSLOAD_accesses (h : m.Roomy) (hTop : 0 ≤ m.stack.top) :
    (∃ m', caseSLOAD m = .error .fault m' ∧
      accesses m'.trace = .load (m.stack.fromTop 0) :: accesses m.trace) ∨
    ∃ m', caseSLOAD m = .ok () m' ∧ accesses m'.trace =
      .answer (m.stack.fromTop 0) (m'.stack.fromTop 0) ::
        .load (m.stack.fromTop 0) :: accesses m.trace := by
  obtain ⟨m₁, hPop, hStack₁⟩ := stackPop_fromTop hTop
  have hTrace₁ := quiet_stackPop.accesses_final m
  rw [hPop] at hTrace₁
  by_cases hAdmits : m₁.stack.storage.Admits (m.stack.fromTop 0)
  · obtain ⟨value, m₂, hLoad, hStack₂, hTrace₂⟩ := storageLoad_of_admits hAdmits
    obtain ⟨m₃, hPush, hValue⟩ := stackPush_over h hTop (hStack₂.trans hStack₁) value
    have hTrace₃ := (quiet_stackPush value).accesses_final m₂
    rw [hPush] at hTrace₃
    refine .inr ⟨m₃, (bind_of_ok hPop).trans ((bind_of_ok hLoad).trans hPush), ?_⟩
    rw [hValue]
    exact hTrace₃.trans (hTrace₂.trans (by rw [← hTrace₁]; rfl))
  · obtain ⟨m₂, hLoad, hTrace₂⟩ := storageLoad_of_not_admits hAdmits
    exact .inl ⟨m₂, (bind_of_ok hPop).trans (bind_of_error hLoad),
      hTrace₂.trans (by rw [← hTrace₁]; rfl)⟩

theorem caseSSTORE_accesses (hTop : 1 ≤ m.stack.top) : accesses (final (caseSSTORE m)).trace =
    .store (m.stack.fromTop 1) (m.stack.fromTop 0) :: accesses m.trace := by
  obtain ⟨m₁, m₂, hFirst, hSecond, _⟩ := stackPop_fromTop_two hTop
  have hTrace₁ := quiet_stackPop.accesses_final m
  have hTrace₂ := quiet_stackPop.accesses_final m₁
  rw [hFirst] at hTrace₁
  rw [hSecond] at hTrace₂
  have hRun : caseSSTORE m = storageStore (m.stack.fromTop 1) (m.stack.fromTop 0) m₂ :=
    (bind_of_ok hFirst).trans (bind_of_ok hSecond)
  rw [hRun, storageStore_accesses]
  exact congrArg _ (hTrace₂.trans hTrace₁)

theorem caseSSTORE_without (hTop : ¬1 ≤ m.stack.top) :
    accesses (final (caseSSTORE m)).trace = accesses m.trace := by
  rcases le_or_gt 0 m.stack.top with hZero | hEmpty
  · obtain ⟨m₁, hPop, hStack⟩ := stackPop_fromTop hZero
    have hTrace := quiet_stackPop.accesses_final m
    have hBelow : ¬0 ≤ m₁.stack.top := by
      rw [hStack]
      change ¬0 ≤ m.stack.top - 1
      omega
    have hRun : caseSSTORE m = _ := (bind_of_ok hPop).trans (bind_of_error (stackPop_below hBelow))
    rw [hRun]
    rwa [hPop] at hTrace
  · have hRun : caseSSTORE m = _ := bind_of_error (stackPop_below (not_le.mpr hEmpty))
    rw [hRun]
    rfl

theorem turnHistory_of_ok {control : Control} {m' : Machine}
    (h : cycle code pc m = .ok control m') :
    turnHistory code pc m = answered code pc m.stack m'.stack ++ asked code pc m.stack := by
  rw [turnHistory, h]

theorem turnHistory_of_ne_sload (h : ¬(pc < code.size ∧ decode (code.read pc) = .sload)) :
    turnHistory code pc m = asked code pc m.stack := by
  rw [turnHistory]
  split
  · rw [answered, if_neg h]
    rfl
  · rfl

theorem accesses_sload (h : m.Roomy) (hPc : pc < code.size) (hOp : decode (code.read pc) = .sload) :
    accesses (final (cycle code pc m)).trace = turnHistory code pc m ++ accesses m.trace := by
  have hRun : cycle code pc m = andBreak (pc + 1) caseSLOAD (m.fetched pc) := by
    rw [cycle_of_lt hPc, hOp]
    rfl
  by_cases hTop : 0 ≤ m.stack.top
  · have hAsked : asked code pc m.stack = [.load (m.stack.fromTop 0)] := by
      simp [asked, hPc, hOp, hTop]
    obtain ⟨m', hCase, hTrace⟩ | ⟨m', hCase, hTrace⟩ :=
      caseSLOAD_accesses (m := m.fetched pc) h hTop
    · rw [turnHistory, hRun, andBreak_of_error hCase, hAsked]
      exact hTrace
    · have hAnswered : answered code pc m.stack m'.stack =
          [.answer (m.stack.fromTop 0) (m'.stack.fromTop 0)] := if_pos ⟨hPc, hOp⟩
      have hTurn := hRun.trans (andBreak_of_ok hCase (pc + 1))
      rw [turnHistory_of_ok hTurn, hAsked, hAnswered, hTurn]
      exact hTrace
  · have hAsked : asked code pc m.stack = [] := by simp [asked, hPc, hOp, hTop]
    have hCase : caseSLOAD (m.fetched pc) = _ := bind_of_error (stackPop_below hTop)
    rw [turnHistory, hRun, andBreak_of_error hCase, hAsked]
    rfl

theorem accesses_sstore (hPc : pc < code.size) (hOp : decode (code.read pc) = .sstore) :
    accesses (final (cycle code pc m)).trace = turnHistory code pc m ++ accesses m.trace := by
  have hFinal : final (cycle code pc m) = final (caseSSTORE (m.fetched pc)) := by
    rw [cycle_of_lt hPc, hOp]
    exact final_bind_pure _ _ _
  have hNe : ¬(pc < code.size ∧ decode (code.read pc) = .sload) := by
    rw [hOp]
    rintro ⟨-, ⟨⟩⟩
  rw [turnHistory_of_ne_sload hNe, hFinal]
  by_cases hTop : 1 ≤ m.stack.top
  · have hAsked : asked code pc m.stack = [.store (m.stack.fromTop 1) (m.stack.fromTop 0)] := by
      simp [asked, hPc, hOp, hTop]
    rw [hAsked]
    exact caseSSTORE_accesses (m := m.fetched pc) hTop
  · have hAsked : asked code pc m.stack = [] := by simp [asked, hPc, hOp, hTop]
    rw [hAsked]
    exact caseSSTORE_without (m := m.fetched pc) hTop

theorem accesses_cycle (code : Bytecode) (pc : Nat) (h : m.Roomy) :
    accesses (final (cycle code pc m)).trace = turnHistory code pc m ++ accesses m.trace := by
  by_cases hPc : pc < code.size
  · by_cases hSload : decode (code.read pc) = .sload
    · exact accesses_sload h hPc hSload
    by_cases hSstore : decode (code.read pc) = .sstore
    · exact accesses_sstore hPc hSstore
    have hAsked : asked code pc m.stack = [] := by
      rw [asked, if_pos hPc]
      split
      · exact absurd ‹_› hSload
      · exact absurd ‹_› hSstore
      · rfl
    rw [turnHistory_of_ne_sload fun h => hSload h.2, hAsked, cycle_of_lt hPc]
    generalize decode (code.read pc) = op at hSload hSstore
    by_cases hStop : op = .stop
    · subst hStop
      rfl
    · exact (shaped_executeCase code (pc + 1) hStop hSload hSstore).quiet.accesses_final _
  · have hAsked : asked code pc m.stack = [] := if_neg hPc
    rw [turnHistory_of_ne_sload fun h => hPc h.1, hAsked, cycle, if_neg hPc, final_bind_pure]
    exact quiet_stackPop.accesses_final m

end Turn

/-- A run records its history. -/
theorem accesses_executeFor (code : Bytecode) (n pc : Nat) {m : Machine} (h : m.Roomy) :
    accesses (final (executeFor code n pc m)).trace =
      storageHistory code n pc m ++ accesses m.trace := by
  induction n generalizing pc m with
  | zero => rfl
  | succ n ih =>
    have hTurn := accesses_cycle code pc h
    rw [storageHistory]
    cases hRun : cycle code pc m with
    | error e m' =>
      rw [hRun] at hTurn
      rw [executeFor, turns_succ_of_error hRun]
      exact hTurn
    | ok control m' =>
      rw [hRun] at hTurn
      cases control with
      | inr r =>
        rw [executeFor, turns_succ_of_inr hRun]
        exact hTurn
      | inl pc' =>
        have hNext := ih pc' ((keepsRoomy_cycle code pc).of_ok h hRun)
        rw [executeFor, turns_succ_of_inl hRun, ← executeFor, hNext, List.append_assoc]
        exact congrArg _ hTurn

end Manhattan.Vm
