import Manhattan.Vm.Boundaries
import Manhattan.Vm.CaseRules

/-! # Two ways to halt

A program can run off its end or execute a STOP placed there. Up to that point the two runs
are the same run. STOP then leaves everything as it is, and the end of the code pops an item.
-/

namespace Manhattan.Vm

open Library.ExecRules

def Bytecode.withStop (code : Bytecode) (beyond : Nat → Byte) : Bytecode where
  bytes := code.bytes ++ [0x00]
  beyond := beyond

variable {code : Bytecode} {beyond : Nat → Byte}

theorem Bytecode.size_withStop : (code.withStop beyond).size = code.size + 1 :=
  List.length_append

theorem Bytecode.read_withStop {offset : Nat} (h : offset < code.size) :
    (code.withStop beyond).read offset = code.read offset := by
  have hLonger : offset < (code.withStop beyond).bytes.length := by
    change offset < (code.bytes ++ [0x00]).length
    rw [List.length_append]
    exact Nat.lt_add_right _ h
  rw [Bytecode.read, dif_pos hLonger]
  exact (List.getElem_append_left h).trans (dif_pos h).symm

theorem Bytecode.read_withStop_size : (code.withStop beyond).read code.size = 0x00 := by
  apply read_of_getElem?
  exact List.getElem?_concat_length

/-! ## One turn -/

theorem jumpTo_withStop (hSize : code.size + 1 < 2 ^ 64) {a : Word} {pc : Nat}
    (h : jumpTo code a = .inl pc) : jumpTo (code.withStop beyond) a = .inl pc := by
  obtain ⟨hIn, hByte, rfl⟩ := jumpTo_eq_inl.mp h
  have hBelow := lt_of_not_outOfBounds hIn
  apply jumpTo_eq_inl.mpr
  refine ⟨?_, ?_, rfl⟩
  · rw [Bytecode.size_withStop]
    rintro (hNegative | hAbove)
    · exact hIn (.inl hNegative)
    · rw [Nat.mod_eq_of_lt hSize] at hAbove
      omega
  · rw [Bytecode.read_withStop hBelow]
    exact hByte

theorem casePUSH_withStop {n pc pc' : Nat} {m m' : Machine} (hEnd : pc + n ≤ code.size)
    (h : casePUSH code n pc m = .ok pc' m') :
    casePUSH (code.withStop beyond) n pc m = .ok pc' m' := by
  induction n generalizing pc m with
  | zero => exact h
  | succ n ih =>
    rw [casePUSH_succ] at h ⊢
    rw [Bytecode.read_withStop (by omega)]
    obtain ⟨u, t, hPush, hRest⟩ := bind_eq_ok h
    rw [bind_of_ok hPush]
    exact ih (by omega) hRest

theorem executeCase_withStop (hSize : code.size + 1 < 2 ^ 64) {pc pc' : Nat} {op : Opcode}
    {m m' : Machine} (hEnd : pc' ≤ code.size) (h : executeCase code pc op m = .ok (.inl pc') m') :
    executeCase (code.withStop beyond) pc op m = .ok (.inl pc') m' := by
  cases op with
  | jump =>
    obtain ⟨a, t, hPop, hJump⟩ := bind_eq_ok h
    obtain ⟨hTo, rfl⟩ := EStateM.Result.ok.inj hJump
    refine (bind_of_ok hPop).trans ?_
    exact congrArg (EStateM.Result.ok · t) (jumpTo_withStop hSize hTo)
  | jumpi =>
    obtain ⟨b, t, hPop, hRest⟩ := bind_eq_ok h
    obtain ⟨a, u, hPop', hJump⟩ := bind_eq_ok hRest
    obtain ⟨hTo, rfl⟩ := EStateM.Result.ok.inj hJump
    refine (bind_of_ok hPop).trans ((bind_of_ok hPop').trans ?_)
    apply congrArg (EStateM.Result.ok · u)
    by_cases hCondition : b ≠ 0
    · rw [if_pos hCondition] at hTo ⊢
      exact jumpTo_withStop hSize hTo
    · rw [if_neg hCondition] at hTo ⊢
      exact hTo
  | push n =>
    obtain ⟨next, t, hPush, hPure⟩ := bind_eq_ok h
    cases hPure
    have hNext := casePUSH_next hPush
    exact bind_of_ok (casePUSH_withStop (hNext ▸ hEnd) hPush)
  | _ => exact h

theorem cycle_withStop (hSize : code.size + 1 < 2 ^ 64) {pc pc' : Nat} {m m' : Machine}
    (hEnd : pc' ≤ code.size) (h : cycle code pc m = .ok (.inl pc') m') :
    cycle (code.withStop beyond) pc m = .ok (.inl pc') m' := by
  obtain ⟨hPc, _⟩ := cycle_next h
  rw [cycle_of_lt hPc] at h
  rw [cycle_of_lt (by rw [Bytecode.size_withStop]; omega), Bytecode.read_withStop hPc]
  exact executeCase_withStop hSize hEnd h

/-! ## Runs -/

theorem executeFor_eq_inl_succ {n pc : Nat} {s m : Machine}
    (h : executeFor code (n + 1) 0 s = .ok (.inl pc) m) :
    ∃ pc₀ m₀, executeFor code n 0 s = .ok (.inl pc₀) m₀ ∧ cycle code pc₀ m₀ = .ok (.inl pc) m := by
  rw [executeFor, turns_succ_last] at h
  obtain ⟨c, m₀, hRun, hCycle⟩ := bind_eq_ok h
  cases c with
  | inl pc₀ => exact ⟨pc₀, m₀, hRun, hCycle⟩
  | inr r => cases hCycle

theorem executeFor_withStop (hSize : code.size + 1 < 2 ^ 64) {n pc : Nat} {s m : Machine}
    (hEnd : pc ≤ code.size) (h : executeFor code n 0 s = .ok (.inl pc) m) :
    executeFor (code.withStop beyond) n 0 s = .ok (.inl pc) m := by
  induction n generalizing pc m with
  | zero => exact h
  | succ n ih =>
    obtain ⟨pc₀, m₀, hRun, hCycle⟩ := executeFor_eq_inl_succ h
    obtain ⟨hPc, _⟩ := cycle_next hCycle
    rw [executeFor_succ_of_inl (ih (Nat.le_of_lt hPc) hRun)]
    exact cycle_withStop hSize hEnd hCycle

theorem cycle_withStop_size (m : Machine) :
    cycle (code.withStop beyond) code.size m =
      .ok (.inr ⟨.stop, BitVec.ofInt 64 m.stack.top⟩) (m.fetched code.size) := by
  rw [cycle_of_lt (by rw [Bytecode.size_withStop]; omega), Bytecode.read_withStop_size]
  rfl

theorem cycle_size (m : Machine) :
    cycle code code.size m =
      (stackPop >>= fun value => (pure (.inr ⟨.fellOff, value⟩) : VM Control)) m := by
  rw [cycle, if_neg (Nat.lt_irrefl _)]

/-- Where a run reaches the end of the code, a STOP there ends it with the stack, the memory
and the storage as they are. The code without it takes the top item off and returns that
item, or exits if there is none. -/
theorem withStop_halts (code : Bytecode) (hSize : code.size + 1 < 2 ^ 64)
    (beyond : Nat → Byte) (s : Stack) (n : Nat) (m : Machine)
    (hEnd : executeFor code n 0 s.machine = .ok (.inl code.size) m) :
    (∃ value k, Returns (code.withStop beyond) s ⟨.stop, value⟩ k ∧ k.stack = m.stack) ∧
    (0 ≤ m.stack.top → ∃ k, Returns code s ⟨.fellOff, m.stack.fromTop 0⟩ k ∧
      k.stack = { m.stack with top := m.stack.top - 1 }) ∧
    (m.stack.top < 0 → Halts code s (.exit "POP: Stack underflow!\n") m) := by
  refine ⟨?_, ?_, ?_⟩
  · have hRun : executeFor (code.withStop beyond) n 0 s.machine = .ok (.inl code.size) m :=
      executeFor_withStop hSize (Nat.le_refl _) hEnd
    exact ⟨_, m.fetched code.size,
      ⟨n + 1, (executeFor_succ_of_inl hRun).trans (cycle_withStop_size m)⟩, rfl⟩
  · intro hTop
    obtain ⟨k, hPop, hStack⟩ := stackPop_fromTop hTop
    refine ⟨k, ⟨n + 1, (executeFor_succ_of_inl hEnd).trans ?_⟩, hStack⟩
    rw [cycle_size]
    exact bind_of_ok hPop
  · intro hTop
    refine ⟨n + 1, (executeFor_succ_of_inl hEnd).trans ?_⟩
    rw [cycle_size]
    exact bind_of_error (stackPop_below (Int.not_le.mpr hTop))

theorem withStop_halts_push :
    let code : Bytecode := ⟨[0x60, 1, 0x60, 2], fun _ => 0⟩
    let s := stackCreate 4 (fun _ => 0) zeroMemory
    let m := final (executeFor code 2 0 s.machine)
    (∃ value k, Returns (code.withStop fun _ => 0) s ⟨.stop, value⟩ k ∧ k.stack = m.stack) ∧
    (0 ≤ m.stack.top → ∃ k, Returns code s ⟨.fellOff, m.stack.fromTop 0⟩ k ∧
      k.stack = { m.stack with top := m.stack.top - 1 }) ∧
    (m.stack.top < 0 → Halts code s (.exit "POP: Stack underflow!\n") m) := by
  intro code s m
  have hEnd : executeFor code 2 0 s.machine = .ok (.inl code.size) m :=
    eq_ok_of_outcome (by decide +kernel)
  exact withStop_halts code (by decide) (fun _ => 0) s 2 m hEnd

/-- The same code returns 2 and keeps one item, but with STOP it returns 1 and keeps both. -/
theorem withStop_halts_differently :
    let code : Bytecode := ⟨[0x60, 1, 0x60, 2], fun _ => 0⟩
    let s := stackCreate 4 (fun _ => 0) zeroMemory
    let fallen := executeFor code 3 0 s.machine
    let stopped := executeFor (code.withStop fun _ => 0) 3 0 s.machine
    outcome (executeFor code 2 0 s.machine) = .ok (.inl code.size) ∧
    outcome fallen = .ok (.inr ⟨.fellOff, 2⟩) ∧ (final fallen).stack.items = [1] ∧
    outcome stopped = .ok (.inr ⟨.stop, 1⟩) ∧ (final stopped).stack.items = [1, 2] := by
  decide +kernel

end Manhattan.Vm
