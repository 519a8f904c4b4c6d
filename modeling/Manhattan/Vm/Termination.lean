import Manhattan.Library.CountedLoops
import Manhattan.Vm.Exponent
import Manhattan.Vm.Halting
import Manhattan.Vm.Trapping

/-! # What ends

Nothing counts the instructions of a run. When every jump that it takes goes forward, `pc` grows
in each turn and the run is over after as many turns as the code has bytes, and one more. The
loops inside the cases are over after a number of turns that their operands bound.
-/

namespace Manhattan.Vm

open Library.ExecRules Library.WordReadings

def TakesJump (code : Bytecode) (pc : Nat) (s : Stack) (a : Word) : Prop :=
  pc < code.size ∧ Jumps code pc s a ∧ ¬outOfBounds a code.size ∧ code.read a.toNat = 0x5b

/-- Every jump that the run takes goes to a greater offset than its own. -/
def JumpsForward (code : Bytecode) (s : Stack) : Prop :=
  ∀ n pc m a, executeFor code n 0 s.machine = .ok (.inl pc) m → TakesJump code pc m.stack a →
    pc < a.toNat

/-- The run returns or exits, and has fetched no more opcodes than the code has bytes. -/
def Ends (code : Bytecode) (s : Stack) : Prop :=
  ∃ m, ((∃ r, Returns code s r m) ∨ ∃ message, Halts code s (.exit message) m) ∧
    (fetches m).length ≤ code.size

/-- The instruction at `pc` neither divides INT64_MIN by -1 nor looks up a key that leads outside
the storage. -/
def Defined (code : Bytecode) (pc : Nat) (s : Stack) : Prop :=
  ¬DividesAt code pc s INT64_MIN (-1) ∧ ∀ key, LooksUp code pc s key → s.storage.Admits key

/-! ## Runs -/

section Runs

variable {code : Bytecode} {s : Stack}

theorem cycle_forward {pc pc' : Nat} {m m' : Machine}
    (hForward : ∀ a, TakesJump code pc m.stack a → pc < a.toNat)
    (h : cycle code pc m = .ok (.inl pc') m') : pc < code.size ∧ pc < pc' := by
  obtain ⟨hPc, rfl | ⟨a, hJump, hIn, hByte, rfl⟩⟩ := cycle_next h
  · have hLength := instructionLength_pos (code.read pc)
    exact ⟨hPc, by omega⟩
  · exact ⟨hPc, hForward a ⟨hPc, hJump, hIn, hByte⟩⟩

theorem executeFor_forward (hForward : JumpsForward code s) {n pc : Nat} {m : Machine}
    (h : executeFor code n 0 s.machine = .ok (.inl pc) m) : n ≤ pc ∧ n ≤ code.size := by
  induction n generalizing pc m with
  | zero => exact ⟨Nat.zero_le _, Nat.zero_le _⟩
  | succ n ih =>
    obtain ⟨pc₀, m₀, hRun, hCycle⟩ := executeFor_eq_inl_succ h
    obtain ⟨hPc, _⟩ := ih hRun
    obtain ⟨hInside, hNext⟩ := cycle_forward (fun a => hForward n pc₀ m₀ a hRun) hCycle
    omega

theorem executeFor_over (hForward : JumpsForward code s) (pc : Nat) (m : Machine) :
    executeFor code (code.size + 1) 0 s.machine ≠ .ok (.inl pc) m := by
  intro h
  obtain ⟨_, hTurns⟩ := executeFor_forward hForward h
  omega

/-- Whenever the loop goes on, no more opcodes have been fetched than bytes lie before `pc`. -/
theorem length_fetches_le (hForward : JumpsForward code s) (n : Nat) :
    (fetches (final (executeFor code n 0 s.machine))).length ≤ code.size := by
  let Before (pc : Nat) (m : Machine) : Prop :=
    (fetches m).length ≤ pc ∧ (fetches m).length ≤ code.size
  let Back (pc : Nat) (m : Machine) : Prop := ∃ a, TakesJump code pc m.stack a ∧ a.toNat ≤ pc
  have hStart : ∀ pc m, Before pc m → (fetches m).length ≤ code.size := fun _ _ => And.right
  have hStep : ∀ pc m, Before pc m → ¬Back pc m →
      (fetches (final (cycle code pc m))).length ≤ code.size ∧
        ∀ pc' m', cycle code pc m = .ok (.inl pc') m' → Before pc' m' := by
    rintro pc m ⟨hPc, hSize⟩ hBack
    obtain hInside | hEnd := Nat.lt_or_ge pc code.size
    · have hFetches := fetches_cycle hInside m
      have hLength : (fetches (final (cycle code pc m))).length = (fetches m).length + 1 := by
        rw [hFetches, List.length_append, List.length_singleton]
      refine ⟨by omega, fun pc' m' hCycle => ?_⟩
      have hNext := (cycle_forward (fun a hJump => Nat.lt_of_not_le fun hLe =>
        hBack ⟨a, hJump, hLe⟩) hCycle).2
      rw [hCycle, final_ok] at hLength
      exact ⟨by omega, by omega⟩
    · rw [fetches_cycle_end (Nat.not_lt.mpr hEnd)]
      exact ⟨hSize, fun pc' m' hCycle => absurd (cycle_next hCycle).1 (Nat.not_lt.mpr hEnd)⟩
  have hFresh : Before 0 s.machine := ⟨Nat.le_refl 0, Nat.zero_le _⟩
  refine (turns_good hStart hStep hFresh ?_).1
  rintro k _ pc m hRun ⟨a, hJump, hBack⟩
  exact absurd (hForward k pc m a hRun hJump) (Nat.not_lt.mpr hBack)

theorem cycle_fault {pc : Nat} {m : Machine} {key : Word} (hLooksUp : LooksUp code pc m.stack key)
    (hOutside : ¬m.stack.storage.Admits key) : ∃ m', cycle code pc m = .error .fault m' := by
  obtain ⟨hPc, ⟨hOp, hTop, rfl⟩ | ⟨hOp, hTop, rfl⟩⟩ := hLooksUp
  · obtain ⟨m₁, hPop, hStack⟩ := stackPop_fromTop (m := m.fetched pc) hTop
    have hOutside₁ : ¬m₁.stack.storage.Admits (m.stack.fromTop 0) := by
      rwa [hStack]
    obtain ⟨m₂, hLoad, _⟩ := storageLoad_of_not_admits hOutside₁
    refine ⟨m₂, ?_⟩
    rw [cycle_of_lt hPc, hOp]
    exact andBreak_of_error ((bind_of_ok hPop).trans (bind_of_error hLoad)) (pc + 1)
  · obtain ⟨m₁, m₂, hFirst, hSecond, hStack⟩ := stackPop_fromTop_two (m := m.fetched pc) hTop
    have hOutside₂ : ¬m₂.stack.storage.Admits (m.stack.fromTop 1) := by
      rwa [hStack]
    obtain ⟨m₃, hStore, _⟩ := storageStore_of_not_admits (m.stack.fromTop 0) hOutside₂
    refine ⟨m₃, ?_⟩
    rw [cycle_of_lt hPc, hOp]
    exact andBreak_of_error ((bind_of_ok hFirst).trans ((bind_of_ok hSecond).trans hStore)) (pc + 1)

theorem cycle_not_defined {pc : Nat} {m : Machine} (h : ¬Defined code pc m.stack) :
    ∃ e m', cycle code pc m = .error e m' ∧ ∀ message, e ≠ .exit message := by
  obtain hDivides | hKey := not_and_or.mp h
  · obtain ⟨m', hTrap⟩ := cycle_overflow (not_not.mp hDivides)
    exact ⟨.trap, m', hTrap, fun _ => Halt.noConfusion⟩
  · push Not at hKey
    obtain ⟨key, hLooksUp, hOutside⟩ := hKey
    obtain ⟨m', hFault⟩ := cycle_fault hLooksUp hOutside
    exact ⟨.fault, m', hFault, fun _ => Halt.noConfusion⟩

theorem Stops.defined {pc : Nat} {s : Stack} {e : Halt} (h : Stops code pc s e)
    (hDefined : Defined code pc s) : ∃ message, e = .exit message := by
  cases h with
  | exit message => exact ⟨message, rfl⟩
  | trap hAt => exact absurd hAt hDefined.1
  | fault hLooksUp hOutside => exact absurd (hDefined.2 _ hLooksUp) hOutside

theorem not_ends_of_error {n : Nat} {e : Halt} {m : Machine}
    (hStop : executeFor code n 0 s.machine = .error e m) (hExit : ∀ message, e ≠ .exit message) :
    ¬Ends code s := by
  have hOver : ∀ pc t, executeFor code n 0 s.machine ≠ .ok (.inl pc) t := fun _ _ hOk =>
    nomatch hStop.symm.trans hOk
  rintro ⟨m', ⟨r, k, hReturn⟩ | ⟨message, k, hHalt⟩, _⟩
  · have hSame : executeFor code n 0 s.machine = executeFor code k 0 s.machine :=
      turns_unique hOver fun _ _ hOk => nomatch hReturn.symm.trans hOk
    rw [hStop, hReturn] at hSame
    cases hSame
  · have hSame : executeFor code n 0 s.machine = executeFor code k 0 s.machine :=
      turns_unique hOver fun _ _ hOk => nomatch hHalt.symm.trans hOk
    rw [hStop, hHalt] at hSame
    cases hSame
    exact hExit message rfl

theorem ends_iff (hForward : JumpsForward code s) :
    Ends code s ↔ ∀ n pc m, executeFor code n 0 s.machine = .ok (.inl pc) m →
      Defined code pc m.stack := by
  constructor
  · intro hEnds n pc m hRun
    by_contra hNot
    obtain ⟨e, m', hError, hExit⟩ := cycle_not_defined hNot
    exact not_ends_of_error ((executeFor_succ_of_inl hRun).trans hError) hExit hEnds
  · intro hDefined
    have hFetches := length_fetches_le hForward (code.size + 1)
    cases hRun : executeFor code (code.size + 1) 0 s.machine with
    | ok c m =>
      rw [hRun] at hFetches
      cases c with
      | inl pc => exact absurd hRun (executeFor_over hForward pc m)
      | inr r => exact ⟨m, .inl ⟨r, _, hRun⟩, hFetches⟩
    | error e m =>
      rw [hRun] at hFetches
      obtain ⟨k, _, pc, m', hGoing, hTurn⟩ := turns_error hRun
      obtain ⟨message, rfl⟩ := (cycle_stops hTurn).defined (hDefined k pc m' hGoing)
      exact ⟨m, .inr ⟨message, _, hRun⟩, hFetches⟩

end Runs

/-! ## The loops inside the cases -/

/-- `while (exponent > 0)` -/
def expTurn : Word × Word × Word → VM ((Word × Word × Word) ⊕ Word)
  | (exponent, a, result) =>
    if 0 < exponent.toInt then do
      let result' := if exponent &&& 1 ≠ 0 then result * a else result
      exitIf (exponent &&& 1 ≠ 0 ∧ result'.toInt < a.toInt)
        "Error: Integer overflow in exponential operation\n"
      let a' := a * a
      exitIf (a'.toInt < 1) "Error: Integer overflow in exponential operation\n"
      return .inl (exponent.sshiftRight 1, a', result')
    else return .inr result

/-- `for (i = 0; i < n; i++)` of PUSHn, on `i` and `pc` -/
def pushTurn (code : Bytecode) (n : Nat) : Nat × Nat → VM ((Nat × Nat) ⊕ Nat)
  | (i, pc) =>
    if i < n then do
      emit (.immediate pc)
      stackPush ((code.read pc).setWidth 64)
      return .inl (i + 1, pc + 1)
    else return .inr pc

/-- `for (ptr = memory_data; ptr < memory_end; ptr++)` -/
def pointerTurn (memoryEnd : Word) : Word × List Byte → VM ((Word × List Byte) ⊕ List Byte)
  | (ptr, data) =>
    if ptr < memoryEnd then do
      let b ← readAddress ptr
      return .inl (ptr + 1, data ++ [b])
    else return .inr data

/-- Every loop of EXP, PUSHn, DUPn, SWAPn and LOGn is over after the turns given here, for all
operands and in every state. -/
structure LoopsEnd : Prop where
  exp : ∀ exponent a result, EndsAs expTurn 64 (exponent, a, result) (expLoop exponent a result)
  push : ∀ code n pc, EndsAs (pushTurn code n) (n + 1) (0, pc) (casePUSH code n pc)
  dupRead : ∀ (top : Int) (x : Nat), EndsAs (collect x fun i => readData (top - i)) (x + 1) (0, [])
    ((List.range x).mapM fun i : Nat => readData (top - i))
  dupPush : ∀ a : List Word, EndsAs (countdown fun i => stackPush (a.getD i 0)) (a.length + 1)
    a.length (a.reverse.forM stackPush)
  swapRead : ∀ (top : Int) (x : Nat), EndsAs (collect (x + 1) fun i => readData (top - i)) (x + 2)
    (0, []) ((List.range (x + 1)).mapM fun i : Nat => readData (top - i))
  swapWrite : ∀ (top : Int) (x : Nat) (a : List Word),
    EndsAs (each (x + 1) fun i => writeData (top - i) (a.getD (x - i) 0)) (x + 2) 0
      ((List.range (x + 1)).forM fun i : Nat => writeData (top - i) (a.getD (x - i) 0))
  logTopics : ∀ n, EndsAs (collect n fun _ => stackPop) (n + 1) (0, [])
    ((List.range n).mapM fun _ => stackPop)
  logData : ∀ memoryData memoryEnd : Word, EndsAs (pointerTurn memoryEnd)
    (memoryEnd.toNat - memoryData.toNat + 1) (memoryData, []) (readRange memoryData memoryEnd)

theorem endsAs_exp {n : Nat} {exponent : Word} (h : 0 < exponent.toInt → exponent.toNat < 2 ^ n)
    (a result : Word) : EndsAs expTurn (n + 1) (exponent, a, result) (expLoop exponent a result) := by
  induction n generalizing exponent a result with
  | zero =>
    have hOver : ¬0 < exponent.toInt := by
      intro hPos
      have hNat := toInt_eq_toNat hPos.le
      have hBelow := h hPos
      omega
    have hBody : expTurn (exponent, a, result) = pure (.inr result) := if_neg hOver
    rw [expLoop, dif_neg hOver]
    exact endsAs_return hBody 0
  | succ n ih =>
    obtain hPos | hOver := lt_or_ge 0 exponent.toInt
    · have hNat := toInt_eq_toNat hPos.le
      have hHalf := toNat_half hPos.le
      have hBelow := h hPos
      have hNext : (exponent.sshiftRight 1).toNat < 2 ^ n := by omega
      rw [expLoop, dif_pos hPos]
      exact endsAs_step₂ (if_pos hPos) (ih (fun _ => hNext) _ _)
    · have hBody : expTurn (exponent, a, result) = pure (.inr result) := if_neg hOver.not_gt
      rw [expLoop, dif_neg hOver.not_gt]
      exact endsAs_return hBody (n + 1)

theorem endsAs_push_from (code : Bytecode) {n k i : Nat} (h : i + k = n) (pc : Nat) :
    EndsAs (pushTurn code n) (k + 1) (i, pc) (casePUSH code k pc) := by
  induction k generalizing i pc with
  | zero =>
    have hBody : pushTurn code n (i, pc) = pure (.inr pc) := if_neg (by omega)
    exact endsAs_return hBody 0
  | succ k ih =>
    have hBody : i < n := by omega
    exact endsAs_step₂ (if_pos hBody) (ih (by omega) (pc + 1))

theorem toNat_add_one_of_lt {ptr memoryEnd : Word} (h : ptr < memoryEnd) :
    (ptr + 1).toNat = ptr.toNat + 1 := by
  have hEnd := memoryEnd.isLt
  rw [BitVec.lt_def] at h
  rw [BitVec.toNat_add]
  exact Nat.mod_eq_of_lt (show ptr.toNat + 1 < 2 ^ 64 by omega)

theorem readRange_of_lt {ptr memoryEnd : Word} (h : ptr < memoryEnd) :
    readRange ptr memoryEnd = (do
      let b ← readAddress ptr
      let rest ← readRange (ptr + 1) memoryEnd
      return b :: rest) := by
  have hNext := toNat_add_one_of_lt h
  rw [BitVec.lt_def] at h
  obtain ⟨k, hLength⟩ : ∃ k, memoryEnd.toNat - ptr.toNat = k + 1 :=
    ⟨memoryEnd.toNat - ptr.toNat - 1, by omega⟩
  have hRest : memoryEnd.toNat - (ptr + 1).toNat = k := by omega
  have hHead : ptr + BitVec.ofNat 64 0 = ptr := BitVec.add_zero ptr
  have hTail : (fun i : Nat => readAddress (ptr + BitVec.ofNat 64 i)) ∘ Nat.succ =
      fun i => readAddress (ptr + 1 + BitVec.ofNat 64 i) := by
    funext i
    rw [Function.comp_apply, Nat.succ_eq_add_one, add_ofNat_succ]
  rw [readRange, readRange, hLength, hRest, List.range_succ_eq_map, List.mapM_cons, List.mapM_map,
    hHead, hTail]

theorem endsAs_pointer {memoryEnd : Word} {k : Nat} {ptr : Word}
    (h : memoryEnd.toNat - ptr.toNat = k) (data : List Byte) :
    EndsAs (pointerTurn memoryEnd) (k + 1) (ptr, data)
      (readRange ptr memoryEnd >>= fun rest => pure (data ++ rest)) := by
  induction k generalizing ptr data with
  | zero =>
    have hBody : pointerTurn memoryEnd (ptr, data) = pure (.inr data) :=
      if_neg (by rw [BitVec.lt_def]; omega)
    rw [readRange, h, List.range_zero, List.mapM_nil, pure_bind, List.append_nil]
    exact endsAs_return hBody 0
  | succ k ih =>
    have hLt : ptr < memoryEnd := by
      rw [BitVec.lt_def]
      omega
    have hNext := toNat_add_one_of_lt hLt
    have hBody : pointerTurn memoryEnd (ptr, data) =
        readAddress ptr >>= fun b => pure (.inl (ptr + 1, data ++ [b])) := if_pos hLt
    rw [readRange_of_lt hLt, bind_assoc]
    refine endsAs_step hBody fun b => ?_
    have hRest := ih (show memoryEnd.toNat - (ptr + 1).toNat = k by omega) (data ++ [b])
    simpa only [bind_assoc, pure_bind, List.append_assoc, List.singleton_append] using hRest

theorem endsAs_dup (a : List Word) : EndsAs (countdown fun i => stackPush (a.getD i 0))
    (a.length + 1) a.length (a.reverse.forM stackPush) := by
  have hList : (List.range a.length).map (fun i => a.getD i 0) = a := by
    refine List.ext_getElem (by simp) fun i _ hi => ?_
    simp [hi]
  have hPushes : a.reverse.forM stackPush =
      (List.range a.length).reverse.forM fun i => stackPush (a.getD i 0) :=
    calc
      a.reverse.forM stackPush
      _ = ((List.range a.length).map fun i => a.getD i 0).reverse.forM stackPush := by rw [hList]
      _ = ((List.range a.length).reverse.map fun i => a.getD i 0).forM stackPush := by
        rw [List.map_reverse]
      _ = _ := List.forM_map
  rw [hPushes]
  exact endsAs_countdown a.length fun i => stackPush (a.getD i 0)

theorem loopsEnd : LoopsEnd where
  exp exponent a result := endsAs_exp (fun hPos => by
    have hNat := toInt_eq_toNat hPos.le
    have hUpper := BitVec.toInt_lt (x := exponent)
    omega) a result
  push code n pc := endsAs_push_from code (Nat.zero_add n) pc
  dupRead top x := endsAs_collect x fun i => readData (top - i)
  dupPush := endsAs_dup
  swapRead top x := endsAs_collect (x + 1) fun i => readData (top - i)
  swapWrite top x a := endsAs_each (x + 1) fun i => writeData (top - i) (a.getD (x - i) 0)
  logTopics n := endsAs_collect n fun _ => stackPop
  logData memoryData memoryEnd := by
    have hLoop : EndsAs (pointerTurn memoryEnd) _ (memoryData, []) _ := endsAs_pointer rfl []
    simpa only [List.nil_append, bind_pure] using hLoop

/-! ## Both -/

/-- A run whose jumps all go forward fetches no more opcodes than the code has bytes and is over
after one turn more; it ends by return or by exit if and only if it never divides INT64_MIN by
-1 and never looks up a key that leads outside the storage. The loops inside the cases end. -/
theorem forward_run_ends_iff (code : Bytecode) (s : Stack) (hForward : JumpsForward code s) :
    (∀ n, (fetches (final (executeFor code n 0 s.machine))).length ≤ code.size) ∧
    (∀ pc m, executeFor code (code.size + 1) 0 s.machine ≠ .ok (.inl pc) m) ∧
    (Ends code s ↔ ∀ n pc m, executeFor code n 0 s.machine = .ok (.inl pc) m →
      Defined code pc m.stack) ∧
    LoopsEnd :=
  ⟨length_fetches_le hForward, executeFor_over hForward, ends_iff hForward, loopsEnd⟩

/-- Code that has its 0x5b bytes behind its jumps. -/
theorem jumpsForward_of_layout
    (h : ∀ pc < code.size, ∀ d < code.size, decode (code.read pc) ∈ [.jump, .jumpi] →
      code.read d = 0x5b → pc < d) (s : Stack) : JumpsForward code s := by
  rintro n pc m a _ ⟨hPc, hJump, hIn, hByte⟩
  refine h pc hPc a.toNat (lt_of_not_outOfBounds hIn) ?_ hByte
  cases hJump with
  | jump hCase => simp [hCase]
  | jumpi hCase => simp [hCase]

theorem forward_run_ends_iff_jump :
    let code : Bytecode := ⟨[0x60, 4, 0x56, 0x00, 0x5b, 0x60, 1], fun _ => 0⟩
    ∀ (s : Stack) (n : Nat), (fetches (final (executeFor code n 0 s.machine))).length ≤ 7 :=
  fun s => (forward_run_ends_iff _ s (jumpsForward_of_layout (by decide) s)).1

/-- The division of 2^63 by -1, and SLOAD of -1: the runs are forward and end by neither. -/
theorem forward_run_stops_otherwise :
    let s := stackCreate 4 (fun _ => 0) zeroMemory
    let divides : Bytecode := ⟨[0x60, 1, 0x60, 63, 0x1b, 0x5f, 0x19, 0x04], fun _ => 0⟩
    let loads : Bytecode := ⟨[0x5f, 0x19, 0x54], fun _ => 0⟩
    (JumpsForward divides s ∧ ¬Ends divides s) ∧ JumpsForward loads s ∧ ¬Ends loads s := by
  have hTrap : outcome (executeFor ⟨[0x60, 1, 0x60, 63, 0x1b, 0x5f, 0x19, 0x04], fun _ => 0⟩ 6 0
      (stackCreate 4 (fun _ => 0) zeroMemory).machine) = .error .trap := by decide +kernel
  have hFault : outcome (executeFor ⟨[0x5f, 0x19, 0x54], fun _ => 0⟩ 3 0
      (stackCreate 4 (fun _ => 0) zeroMemory).machine) = .error .fault := by decide +kernel
  refine ⟨⟨jumpsForward_of_layout (by decide) _, ?_⟩, jumpsForward_of_layout (by decide) _, ?_⟩
  · exact not_ends_of_error (eq_error_of_outcome hTrap) fun _ => Halt.noConfusion
  · exact not_ends_of_error (eq_error_of_outcome hFault) fun _ => Halt.noConfusion

end Manhattan.Vm
