import Manhattan.Vm.Quiet

/-! # Where opcodes are fetched

`instructionStarts` is the linear decoding of the code from offset 0. A run leaves it only
through a jump that lands on a byte 0x5b among the immediates of a PUSH, and then in the
very next turn.
-/

namespace Manhattan.Vm

open Library.ExecRules

/-! ## The linear decoding -/

def instructionLength (opcode : Byte) : Nat :=
  if 0x60 ≤ opcode.toNat ∧ opcode.toNat ≤ 0x7f then opcode.toNat - 0x5f + 1 else 1

namespace Bytecode

/-- The offsets of at most `n` instructions from `pc` on. -/
def decodeFrom (code : Bytecode) : Nat → Nat → List Nat
  | 0, _ => []
  | n + 1, pc =>
    if pc < code.size then pc :: code.decodeFrom n (pc + instructionLength (code.read pc)) else []

def instructionStarts (code : Bytecode) : List Nat := code.decodeFrom code.size 0

def PushData (code : Bytecode) (offset : Nat) : Prop :=
  ∃ pc ∈ code.instructionStarts, pc < offset ∧ offset < pc + instructionLength (code.read pc)

end Bytecode

theorem instructionLength_pos (opcode : Byte) : 0 < instructionLength opcode := by
  unfold instructionLength
  split <;> omega

variable {code : Bytecode}

theorem Bytecode.le_of_mem_decodeFrom {n start pc : Nat} (h : pc ∈ code.decodeFrom n start) :
    start ≤ pc := by
  induction n generalizing start with
  | zero => cases h
  | succ n ih =>
    rw [decodeFrom] at h
    split at h
    · rcases List.mem_cons.mp h with rfl | hTail
      · exact Nat.le_refl _
      · have hLe := ih hTail
        omega
    · cases h

theorem Bytecode.mem_decodeFrom_self {n start : Nat} (hStart : start < code.size)
    (hEnough : code.size ≤ start + n) : start ∈ code.decodeFrom n start := by
  cases n with
  | zero => omega
  | succ n =>
    rw [decodeFrom, if_pos hStart]
    exact List.mem_cons_self

theorem Bytecode.next_mem_decodeFrom {n start pc : Nat} (h : pc ∈ code.decodeFrom n start)
    (hEnough : code.size ≤ start + n)
    (hNext : pc + instructionLength (code.read pc) < code.size) :
    pc + instructionLength (code.read pc) ∈ code.decodeFrom n start := by
  induction n generalizing start with
  | zero => cases h
  | succ n ih =>
    rw [decodeFrom] at h ⊢
    split at h
    · rename_i hStart
      have hLength := instructionLength_pos (code.read start)
      rw [if_pos hStart]
      apply List.mem_cons_of_mem
      rcases List.mem_cons.mp h with rfl | hTail
      · exact mem_decodeFrom_self hNext (by omega)
      · exact ih hTail (by omega)
    · cases h

theorem Bytecode.decodeFrom_apart {n start pc offset : Nat} (hPc : pc ∈ code.decodeFrom n start)
    (hOffset : offset ∈ code.decodeFrom n start) (hLt : pc < offset) :
    pc + instructionLength (code.read pc) ≤ offset := by
  induction n generalizing start with
  | zero => cases hPc
  | succ n ih =>
    rw [decodeFrom] at hPc hOffset
    split at hPc
    · rename_i hStart
      rw [if_pos hStart] at hOffset
      rcases List.mem_cons.mp hPc with rfl | hPcTail
      · rcases List.mem_cons.mp hOffset with rfl | hOffsetTail
        · exact absurd hLt (Nat.lt_irrefl _)
        · exact le_of_mem_decodeFrom hOffsetTail
      · rcases List.mem_cons.mp hOffset with rfl | hOffsetTail
        · have hLe := le_of_mem_decodeFrom hPcTail
          omega
        · exact ih hPcTail hOffsetTail
    · cases hPc

theorem Bytecode.decodeFrom_cover {n start offset : Nat} (hStart : start ≤ offset)
    (hOffset : offset < code.size) (hEnough : code.size ≤ start + n) :
    offset ∈ code.decodeFrom n start ∨ ∃ pc ∈ code.decodeFrom n start,
      pc < offset ∧ offset < pc + instructionLength (code.read pc) := by
  induction n generalizing start with
  | zero => omega
  | succ n ih =>
    have hLength := instructionLength_pos (code.read start)
    rw [decodeFrom, if_pos (by omega)]
    by_cases hHere : offset < start + instructionLength (code.read start)
    · rcases Nat.eq_or_lt_of_le hStart with rfl | hLt
      · exact .inl List.mem_cons_self
      · exact .inr ⟨start, List.mem_cons_self, hLt, hHere⟩
    · have hLe : start + instructionLength (code.read start) ≤ offset := by omega
      rcases ih hLe (by omega) with hMem | ⟨pc, hPc, hInside⟩
      · exact .inl (List.mem_cons_of_mem _ hMem)
      · exact .inr ⟨pc, List.mem_cons_of_mem _ hPc, hInside⟩

theorem Bytecode.not_pushData_of_mem {offset : Nat} (h : offset ∈ code.instructionStarts) :
    ¬code.PushData offset := by
  rintro ⟨pc, hPc, hLt, hInside⟩
  have hApart := decodeFrom_apart hPc h hLt
  omega

theorem Bytecode.mem_of_not_pushData {offset : Nat} (hOffset : offset < code.size)
    (h : ¬code.PushData offset) : offset ∈ code.instructionStarts :=
  (decodeFrom_cover (Nat.zero_le _) hOffset (by omega)).resolve_right h

/-! ## One turn -/

/-- The instruction at `pc` takes a jump to the operand `a`, if that passes the checks. -/
inductive Jumps (code : Bytecode) (pc : Nat) (s : Stack) : Word → Prop
  | jump (hCase : decode (code.read pc) = .jump) (hTop : 0 ≤ s.top) : Jumps code pc s (s.fromTop 0)
  | jumpi (hCase : decode (code.read pc) = .jumpi) (hTop : 1 ≤ s.top)
      (hCondition : (s.fromTop 0).setWidth 32 ≠ (0 : BitVec 32)) : Jumps code pc s (s.fromTop 1)

/-- The instruction at `pc` is a jump to a byte 0x5b among the immediates of a PUSH. -/
def JumpsIntoData (code : Bytecode) (pc : Nat) (s : Stack) : Prop :=
  pc < code.size ∧ ∃ a, Jumps code pc s a ∧ ¬outOfBounds a code.size ∧
    code.read a.toNat = 0x5b ∧ code.PushData a.toNat

theorem andBreak_next {pc pc' : Nat} {body : VM Unit} {m m' : Machine}
    (h : andBreak pc body m = .ok (.inl pc') m') : pc' = pc := by
  obtain ⟨_, _, _, hPure⟩ := bind_eq_ok h
  cases hPure
  rfl

theorem casePUSH_next {n pc pc' : Nat} {m m' : Machine}
    (h : casePUSH code n pc m = .ok pc' m') : pc' = pc + n := by
  induction n generalizing pc m with
  | zero =>
    cases h
    rfl
  | succ n ih =>
    obtain ⟨_, _, _, hRest⟩ := bind_eq_ok h
    obtain ⟨_, _, _, hTail⟩ := bind_eq_ok hRest
    have hPc := ih hTail
    omega

theorem caseMLOAD_next {pc pc' : Nat} {m m' : Machine}
    (h : caseMLOAD pc m = .ok (.inl pc') m') : pc' = pc := by
  obtain ⟨a, _, _, h⟩ := bind_eq_ok h
  obtain ⟨size, _, _, h⟩ := bind_eq_ok h
  split at h
  · cases h
  · obtain ⟨_, _, _, h⟩ := bind_eq_ok h
    obtain ⟨_, _, _, h⟩ := bind_eq_ok h
    cases h
    rfl

theorem storeCase_next {pc pc' : Nat} {mask : BitVec 32 → BitVec 32} {m m' : Machine}
    (h : storeCase pc mask m = .ok (.inl pc') m') : pc' = pc := by
  obtain ⟨b, _, _, h⟩ := bind_eq_ok h
  obtain ⟨a, _, _, h⟩ := bind_eq_ok h
  obtain ⟨size, _, _, h⟩ := bind_eq_ok h
  split at h
  · cases h
  · obtain ⟨_, _, _, h⟩ := bind_eq_ok h
    obtain ⟨_, _, _, h⟩ := bind_eq_ok h
    cases h
    rfl

def Opcode.immediates : Opcode → Nat
  | .push n => n
  | _ => 0

theorem instructionLength_eq (b : Byte) : instructionLength b = 1 + (decode b).immediates := by
  revert b
  decide

theorem executeCase_next {pc pc' : Nat} {op : Opcode} (hJump : op ≠ .jump) (hJumpi : op ≠ .jumpi)
    {m m' : Machine} (h : executeCase code pc op m = .ok (.inl pc') m') :
    pc' = pc + op.immediates := by
  cases op with
  | jump => exact absurd rfl hJump
  | jumpi => exact absurd rfl hJumpi
  | stop => cases h
  | invalid opcode => cases h
  | jumpdest | skip =>
    cases h
    rfl
  | mload => exact caseMLOAD_next h
  | mstore | mstore8 => exact storeCase_next h
  | push n =>
    obtain ⟨_, _, hPush, hPure⟩ := bind_eq_ok h
    cases hPure
    exact casePUSH_next hPush
  | _ => exact andBreak_next h

theorem jumpTo_eq_inl {a : Word} {pc' : Nat} :
    jumpTo code a = .inl pc' ↔
      ¬outOfBounds a code.size ∧ code.read a.toNat = 0x5b ∧ pc' = a.toNat := by
  unfold jumpTo
  split
  · rename_i hOut
    exact ⟨nofun, fun h => absurd hOut h.1⟩
  · rename_i hIn
    split
    · rename_i hByte
      exact ⟨nofun, fun h => absurd h.2.1 hByte⟩
    · rename_i hByte
      exact ⟨fun h => ⟨hIn, not_not.mp hByte, (Sum.inl.inj h).symm⟩, fun h => congrArg _ h.2.2.symm⟩

theorem lt_of_not_outOfBounds {a : Word} {limit : Nat} (h : ¬outOfBounds a limit) :
    a.toNat < limit := by
  have hNot : ¬limit % 2 ^ 64 ≤ a.toNat := fun hLe => h (.inr hLe)
  have hMod := Nat.mod_le limit (2 ^ 64)
  omega

theorem stackPop_fromTop {m : Machine} (hTop : 0 ≤ m.stack.top) :
    ∃ m', stackPop m = .ok (m.stack.fromTop 0) m' ∧
      m'.stack = { m.stack with top := m.stack.top - 1 } := by
  have hNot : ¬m.stack.top < 0 := by omega
  have hValue : m.stack.fromTop 0 = m.stack.data.getD m.stack.top.toNat 0 := by
    simp [Stack.fromTop]
  rw [hValue]
  exact ⟨_, (stackPop_apply m).trans (if_neg hNot), rfl⟩

theorem stackPop_fromTop_two {m : Machine} (hTop : 1 ≤ m.stack.top) :
    ∃ m₁ m₂, stackPop m = .ok (m.stack.fromTop 0) m₁ ∧ stackPop m₁ = .ok (m.stack.fromTop 1) m₂ ∧
      m₂.stack = { m.stack with top := m.stack.top - 1 - 1 } := by
  obtain ⟨m₁, hFirst, hStack₁⟩ := stackPop_fromTop (m := m) (by omega)
  have hTop₁ : 0 ≤ m₁.stack.top := by
    rw [hStack₁]
    change 0 ≤ m.stack.top - 1
    omega
  obtain ⟨m₂, hSecond, hStack₂⟩ := stackPop_fromTop hTop₁
  have hOperand : m₁.stack.fromTop 0 = m.stack.fromTop 1 := by
    simp [hStack₁, Stack.fromTop]
  rw [hOperand] at hSecond
  rw [hStack₁] at hStack₂
  exact ⟨m₁, m₂, hFirst, hSecond, hStack₂⟩

theorem stackPop_below {m : Machine} (hTop : ¬0 ≤ m.stack.top) :
    stackPop m = .error (.exit "POP: Stack underflow!\n") m :=
  (stackPop_apply m).trans (if_pos (by omega))

theorem caseJUMP_apply (code : Bytecode) {m : Machine} (hTop : 0 ≤ m.stack.top) :
    ∃ m', caseJUMP code m = .ok (jumpTo code (m.stack.fromTop 0)) m' := by
  obtain ⟨m', hPop, _⟩ := stackPop_fromTop hTop
  exact ⟨m', bind_of_ok hPop⟩

theorem caseJUMPI_apply (code : Bytecode) (pc : Nat) {m : Machine} (hTop : 1 ≤ m.stack.top) :
    ∃ m', caseJUMPI code pc m = .ok (if (m.stack.fromTop 0).setWidth 32 ≠ (0 : BitVec 32) then
      jumpTo code (m.stack.fromTop 1) else .inl pc) m' := by
  obtain ⟨m₁, m₂, hFirst, hSecond, _⟩ := stackPop_fromTop_two hTop
  have hLow : stackPop32 m = .ok ((m.stack.fromTop 0).setWidth 32) m₁ := bind_of_ok hFirst
  exact ⟨m₂, (bind_of_ok hLow).trans (bind_of_ok hSecond)⟩

theorem caseJUMPI_below {pc : Nat} {m m' : Machine} {c : Control} (hTop : ¬1 ≤ m.stack.top) :
    caseJUMPI code pc m ≠ .ok c m' := by
  intro h
  obtain ⟨b, m₁, hLow, hRest⟩ := bind_eq_ok h
  obtain ⟨_, m₂, hFirst, hPure⟩ := bind_eq_ok hLow
  cases hPure
  by_cases hZero : 0 ≤ m.stack.top
  · obtain ⟨m₁', hFirst', hStack⟩ := stackPop_fromTop hZero
    rw [hFirst] at hFirst'
    cases hFirst'
    obtain ⟨_, _, hSecond, _⟩ := bind_eq_ok hRest
    rw [stackPop_below (by rw [hStack]; change ¬0 ≤ m.stack.top - 1; omega)] at hSecond
    cases hSecond
  · rw [stackPop_below hZero] at hFirst
    cases hFirst

theorem cycle_next {pc pc' : Nat} {m m' : Machine} (h : cycle code pc m = .ok (.inl pc') m') :
    pc < code.size ∧ (pc' = pc + instructionLength (code.read pc) ∨
      ∃ a, Jumps code pc m.stack a ∧ ¬outOfBounds a code.size ∧ code.read a.toNat = 0x5b ∧
        pc' = a.toNat) := by
  by_cases hPc : pc < code.size
  · refine ⟨hPc, ?_⟩
    rw [cycle_of_lt hPc] at h
    by_cases hJump : decode (code.read pc) = .jump
    · rw [hJump] at h
      by_cases hTop : 0 ≤ m.stack.top
      · obtain ⟨m₁, hRun⟩ := caseJUMP_apply code (m := m.fetched pc) hTop
        have hSame := hRun.symm.trans h
        injection hSame with hTo
        exact .inr ⟨_, .jump hJump hTop, jumpTo_eq_inl.mp hTo⟩
      · obtain ⟨_, _, hPop, _⟩ := bind_eq_ok h
        rw [stackPop_below (m := m.fetched pc) hTop] at hPop
        cases hPop
    · by_cases hJumpi : decode (code.read pc) = .jumpi
      · have hLength := instructionLength_eq (code.read pc)
        rw [hJumpi] at h hLength
        by_cases hTop : 1 ≤ m.stack.top
        · obtain ⟨m₁, hRun⟩ := caseJUMPI_apply code (pc + 1) (m := m.fetched pc) hTop
          have hSame := hRun.symm.trans h
          injection hSame with hTo
          split at hTo
          · rename_i hCondition
            exact .inr ⟨_, .jumpi hJumpi hTop hCondition, jumpTo_eq_inl.mp hTo⟩
          · left
            rw [hLength, ← Sum.inl.inj hTo]
            rfl
        · exact absurd h (caseJUMPI_below hTop)
      · left
        rw [instructionLength_eq, ← Nat.add_assoc]
        exact executeCase_next hJump hJumpi h
  · rw [cycle, if_neg hPc] at h
    obtain ⟨_, _, _, hPure⟩ := bind_eq_ok h
    cases hPure

theorem cycle_of_jumps {pc : Nat} {m : Machine} {a : Word} (hPc : pc < code.size)
    (hJumps : Jumps code pc m.stack a) (hIn : ¬outOfBounds a code.size)
    (hByte : code.read a.toNat = 0x5b) : ∃ m', cycle code pc m = .ok (.inl a.toNat) m' := by
  have hTo : jumpTo code a = .inl a.toNat := jumpTo_eq_inl.mpr ⟨hIn, hByte, rfl⟩
  rw [cycle_of_lt hPc]
  cases hJumps with
  | jump hCase hTop =>
    obtain ⟨m', hRun⟩ := caseJUMP_apply code (m := m.fetched pc) hTop
    rw [hCase, ← hTo]
    exact ⟨m', hRun⟩
  | jumpi hCase hTop hCondition =>
    obtain ⟨m', hRun⟩ := caseJUMPI_apply code (pc + 1) (m := m.fetched pc) hTop
    have hTaken : (m.fetched pc).stack.fromTop 0 = m.stack.fromTop 0 := rfl
    rw [hTaken, if_pos hCondition] at hRun
    rw [hCase, ← hTo]
    exact ⟨m', hRun⟩

/-! ## Fetches -/

abbrev KeepsFetches {α : Type} (m : VM α) : Prop :=
  ∀ k : Machine, Keeps (fun k' => fetches k' = fetches k) (fun _ k' => fetches k' = fetches k) m

theorem keepsFetches_of_quiet {α : Type} {m : VM α} (h : Quiet m) : KeepsFetches m := by
  intro k k' hk
  have hQuiet := h k' k' (.refl k')
  cases hRun : m k' with
  | ok a s =>
    rw [hRun] at hQuiet
    exact hQuiet.fetches.trans hk
  | error e s =>
    rw [hRun] at hQuiet
    exact hQuiet.2.fetches.trans hk

theorem keepsFetches_emit {e : Event} (h : e.fetched = none) : KeepsFetches (emit e) := by
  intro k m hm
  refine (fetches_cons m.stack e m.trace).trans ?_
  rw [h]
  exact (List.append_nil _).trans hm

theorem keepsFetches_storagePrimitive {α : Type} (m : VM α) (h : StoragePrimitive α m) :
    KeepsFetches m := by
  intro k
  apply h.keeps
  · rintro e ⟨⟩ <;> exact keepsFetches_emit rfl k
  · intro m storage hm
    exact hm

theorem keepsFetches_executeCase (code : Bytecode) (pc : Nat) (op : Opcode) :
    KeepsFetches (executeCase code pc op) := by
  by_cases hStop : op = .stop
  · subst hStop
    exact keepsFetches_of_quiet (quiet_getStack.bind fun _ => quiet_pure _)
  · exact fun k => (shapedAny_executeCase code pc hStop).keeps
      (fun m hm => hm.elim (fun hm => keepsFetches_of_quiet (quiet_primitive m hm) k)
        fun hm => keepsFetches_storagePrimitive m hm k) fun _ _ _ h => h

theorem fetches_cycle {pc : Nat} (hPc : pc < code.size) (m : Machine) :
    fetches (final (cycle code pc m)) = fetches m ++ [pc] := by
  rw [cycle_of_lt hPc]
  have hKeeps := keepsFetches_executeCase code (pc + 1) (decode (code.read pc))
    (m.fetched pc)
  exact (hKeeps.final rfl).trans (fetches_cons m.stack (.fetch pc) m.trace)

theorem fetches_cycle_end {pc : Nat} (hPc : ¬pc < code.size) (m : Machine) :
    fetches (final (cycle code pc m)) = fetches m := by
  have hKeeps : KeepsFetches (stackPop >>= fun value =>
      (pure (.inr ⟨.fellOff, value⟩) : VM Control)) :=
    keepsFetches_of_quiet (quiet_stackPop.bind fun _ => quiet_pure _)
  rw [cycle, if_neg hPc]
  exact (hKeeps m).final rfl

/-! ## Runs -/

def Machine.OnStarts (code : Bytecode) (m : Machine) : Prop :=
  ∀ offset ∈ fetches m, offset ∈ code.instructionStarts

instance (code : Bytecode) (m : Machine) : Decidable (m.OnStarts code) :=
  inferInstanceAs (Decidable (∀ offset ∈ fetches m, offset ∈ code.instructionStarts))

theorem Machine.OnStarts.cycle {pc : Nat} {m : Machine} (h : m.OnStarts code)
    (hPc : pc < code.size → pc ∈ code.instructionStarts) :
    (final (Vm.cycle code pc m)).OnStarts code := by
  intro offset hOffset
  by_cases hIn : pc < code.size
  · rw [fetches_cycle hIn] at hOffset
    rcases List.mem_append.mp hOffset with hOld | hNew
    · exact h offset hOld
    · rw [List.mem_singleton.mp hNew]
      exact hPc hIn
  · rw [fetches_cycle_end hIn] at hOffset
    exact h offset hOffset

theorem executeFor_succ_of_inl {n pc : Nat} {s m : Machine}
    (h : executeFor code n 0 s = .ok (.inl pc) m) :
    executeFor code (n + 1) 0 s = Vm.cycle code pc m := by
  rw [executeFor, turns_succ_last]
  exact bind_of_ok h

theorem executeFor_onStarts {s : Stack}
    (hJumps : ∀ n pc m, executeFor code n 0 s.machine = .ok (.inl pc) m →
      ¬JumpsIntoData code pc m.stack) (n : Nat) :
    (final (executeFor code n 0 s.machine)).OnStarts code := by
  let Before (pc : Nat) (m : Machine) : Prop :=
    m.OnStarts code ∧ (pc < code.size → pc ∈ code.instructionStarts)
  have hStart : ∀ pc m, Before pc m → m.OnStarts code := fun _ _ => And.left
  have hStep : ∀ pc m, Before pc m → ¬JumpsIntoData code pc m.stack →
      (final (cycle code pc m)).OnStarts code ∧
        ∀ pc' m', cycle code pc m = .ok (.inl pc') m' → Before pc' m' := by
    rintro pc m ⟨hOnStarts, hPc⟩ hNot
    have hFinal := hOnStarts.cycle hPc
    refine ⟨hFinal, fun pc' m' hCycle => ?_⟩
    rw [hCycle] at hFinal
    refine ⟨hFinal, fun hPc' => ?_⟩
    obtain ⟨hIn, rfl | ⟨a, hJump, hInside, hByte, rfl⟩⟩ := cycle_next hCycle
    · exact Bytecode.next_mem_decodeFrom (hPc hIn) (by omega) hPc'
    · apply Bytecode.mem_of_not_pushData hPc'
      intro hData
      exact hNot ⟨hIn, a, hJump, hInside, hByte, hData⟩
  have hFresh : Before 0 s.machine := ⟨nofun, fun hPc => Bytecode.mem_decodeFrom_self hPc (by omega)⟩
  exact (turns_good hStart hStep hFresh fun k _ => hJumps k).1

/-- A run fetches at instructions alone if and only if it never executes a jump whose operand
is the offset of a 0x5b among the immediates of a PUSH. -/
theorem fetches_onStarts_iff (code : Bytecode) (s : Stack) :
    (∀ n, (final (executeFor code n 0 s.machine)).OnStarts code) ↔
      ∀ n pc m, executeFor code n 0 s.machine = .ok (.inl pc) m →
        ¬JumpsIntoData code pc m.stack := by
  constructor
  · rintro hOnStarts n pc m hEq ⟨hPc, a, hJump, hIn, hByte, hData⟩
    obtain ⟨m', hCycle⟩ := cycle_of_jumps hPc hJump hIn hByte
    have hJumped : executeFor code (n + 1) 0 s.machine = .ok (.inl a.toNat) m' :=
      (executeFor_succ_of_inl hEq).trans hCycle
    have hBelow := lt_of_not_outOfBounds hIn
    have hFetches : fetches (final (executeFor code (n + 2) 0 s.machine)) =
        fetches m' ++ [a.toNat] := by
      rw [executeFor_succ_of_inl hJumped]
      exact fetches_cycle hBelow m'
    have hStart := hOnStarts (n + 2) a.toNat (by
      rw [hFetches]
      exact List.mem_append_right _ (List.mem_singleton.mpr rfl))
    exact Bytecode.not_pushData_of_mem hStart hData
  · exact executeFor_onStarts

/-- PUSH1 5, JUMP, PUSH2 0 0x5b, STOP: the jump to the second immediate is taken. -/
theorem fetches_not_onStarts :
    let code : Bytecode := ⟨[0x60, 5, 0x56, 0x61, 0, 0x5b, 0x00], fun _ => 0⟩
    let r := executeFor code 5 0 (stackCreate 4 (fun _ => 0) zeroMemory).machine
    outcome r = .ok (.inr ⟨.stop, -1⟩) ∧ fetches (final r) = [0, 2, 5, 6] ∧
      code.instructionStarts = [0, 2, 3, 6] ∧ ¬(final r).OnStarts code := by
  decide +kernel

/-- Code without 0x5b among its immediates runs on instructions whatever is on the stack. -/
theorem fetches_onStarts_of_plain (code : Bytecode)
    (hPlain : ∀ offset < code.size, code.PushData offset → code.read offset ≠ 0x5b) (s : Stack)
    (n : Nat) : (final (executeFor code n 0 s.machine)).OnStarts code := by
  refine executeFor_onStarts ?_ n
  rintro k pc m _ ⟨_, a, _, hIn, hByte, hData⟩
  exact hPlain a.toNat (lt_of_not_outOfBounds hIn) hData hByte

end Manhattan.Vm
