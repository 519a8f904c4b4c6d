import Manhattan.Vm.MemorySafety
import Manhattan.Vm.StackSafety
import Manhattan.Vm.StorageRuns

/-! # One bytecode after the other

`main` hands the same stack to `execute_bytecode` again and again, and clears it now and then. What
a bytecode leaves in the memory and in the storage is there for the next ones.
-/

namespace Manhattan.Vm

open Library.ExecRules

/-- What `main` calls with its stack; of a bytecode a number of turns is looked at. -/
inductive StackCall
  | execute (code : Bytecode) (turns : Nat)
  | clear

/-- The calls in their order, up to one that is still under way after its turns. -/
def runCalls : List StackCall → VM Unit
  | [] => pure ()
  | .clear :: rest => do
    modifyStack stackClear
    runCalls rest
  | .execute code n :: rest => do
    match ← executeFor code n 0 with
    | .inl _ => pure ()
    | .inr _ => runCalls rest

variable {capacity : Nat} {memory : Memory}

/-- What every bytecode keeps and `stack_clear` keeps, all calls keep. -/
theorem keeps_runCalls {I : Machine → Prop} {E : Halt → Machine → Prop}
    (hExecute : ∀ code n, Keeps I E (executeFor code n 0))
    (hClear : Keeps I E (modifyStack stackClear)) (calls : List StackCall) :
    Keeps I E (runCalls calls) := by
  induction calls with
  | nil => exact .pure ()
  | cons call rest ih =>
    cases call with
    | clear => exact hClear.bind fun _ => ih
    | execute code n =>
      refine (hExecute code n).bind fun control => ?_
      cases control with
      | inl pc => exact .pure ()
      | inr r => exact ih

theorem keeps_stackClear : KeepsSafe capacity (modifyStack stackClear) := by
  rintro m ⟨⟨hSize, hCells, hLower, hUpper⟩, hTrace⟩
  refine ⟨⟨hSize, hCells, le_rfl, ?_⟩, hTrace⟩
  exact hLower.trans hUpper

theorem guarded_stackClear : KeepsGuarded memory (modifyStack stackClear) :=
  fun _ h => ⟨h.base, h.size, h.trace⟩

theorem keepsAgrees_stackClear : KeepsAgrees (modifyStack stackClear) :=
  fun _ h => h.imp (fun h => ⟨h.sound, h.answered, h.tracks⟩) id

/-- The history of all the calls, newest first; each bytecode goes on with the stack of the one before. -/
def callsHistory : List StackCall → Machine → List Access
  | [], _ => []
  | .clear :: rest, m => callsHistory rest { m with stack := stackClear m.stack }
  | .execute code n :: rest, m =>
    match executeFor code n 0 m with
    | .ok (.inr _) m' => callsHistory rest m' ++ storageHistory code n 0 m
    | _ => storageHistory code n 0 m

theorem accesses_runCalls (calls : List StackCall) {m : Machine} (h : m.Roomy) :
    accesses (final (runCalls calls m)).trace = callsHistory calls m ++ accesses m.trace := by
  induction calls generalizing m with
  | nil => rfl
  | cons call rest ih =>
    cases call with
    | clear => exact ih (keepsRoomy_stackClear m h)
    | execute code n =>
      have hRun := accesses_executeFor code n 0 h
      rw [callsHistory, runCalls]
      cases hEq : executeFor code n 0 m with
      | error e m' =>
        rw [hEq] at hRun
        rw [bind_of_error hEq]
        exact hRun
      | ok control m' =>
        rw [hEq] at hRun
        rw [bind_of_ok hEq]
        cases control with
        | inl pc => exact hRun
        | inr r =>
          have hRest := ih ((keepsRoomy_executeFor code n 0).of_ok h hEq)
          rw [List.append_assoc]
          exact hRest.trans (congrArg _ hRun)

/-- On a fresh stack, whatever is executed on it and however often: all calls stay inside the cells and
inside the memory, and over all of them every SLOAD leaves what one map holds, and the storage is never
left, exactly when the history of all the calls is sound. -/
theorem calls_share_storage (capacity : Nat) (hCapacity : capacity < 2 ^ 31)
    (uninit : Fin capacity → Word) (memory : { m : Memory // m.size = 32 })
    (calls : List StackCall) :
    let start := (stackCreate capacity uninit memory).machine
    let r := runCalls calls start
    (final r).Safe capacity ∧ (final r).Guarded memory ∧
      ((outcome r ≠ .error .fault ∧ Answered (callsHistory calls start)) ↔
        AllSound (callsHistory calls start)) := by
  intro start r
  have hReused : (stackCreate capacity uninit memory).Reused (stackCreate capacity uninit memory) := by
    refine ⟨rfl, rfl, le_rfl, ?_⟩
    rw [size_stackCreate hCapacity]
    change (-1 : Int) ≤ capacity - 1
    omega
  have hSafe : start.Safe capacity := ⟨hReused.inRange hCapacity, nofun⟩
  have hGuarded : start.Guarded memory := ⟨rfl, rfl, nofun⟩
  have hHistory : accesses (final r).trace = callsHistory calls start ++ [] :=
    accesses_runCalls calls (roomy_stackCreate uninit memory)
  refine ⟨?_, ?_, ?_⟩
  · exact (keeps_runCalls (fun code n => keeps_executeFor code n 0) keeps_stackClear calls).final
      hSafe
  · exact (keeps_runCalls (fun code n => guarded_executeFor code n 0) guarded_stackClear
      calls).final hGuarded
  · have hMap := map_iff_of_agrees (keeps_runCalls (fun code n => keepsAgrees_executeFor code n 0)
      keepsAgrees_stackClear calls _ (agrees_stackCreate uninit memory))
    rwa [hHistory, List.append_nil] at hMap

/-- The 7 that the first bytecode stores is found by the second one. -/
def storeThenLoad : List StackCall :=
  [.execute ⟨[0x60, 5, 0x60, 0, 0x60, 7, 0x55], fun _ => 0⟩ 5, .clear,
    .execute ⟨[0x60, 0, 0x54], fun _ => 0⟩ 3]

theorem callsHistory_storeThenLoad :
    callsHistory storeThenLoad (stackCreate 4 (fun _ => 0) zeroMemory).machine =
      [.answer 0 7, .load 0, .store 0 7] := by
  decide +kernel

theorem calls_share_storage_load :
    let start := (stackCreate 4 (fun _ => 0) zeroMemory).machine
    let r := runCalls storeThenLoad start
    callsHistory storeThenLoad start = [.answer 0 7, .load 0, .store 0 7] ∧ (final r).Safe 4 ∧
      (final r).Guarded zeroMemory ∧ outcome r ≠ .error .fault ∧
      Answered (callsHistory storeThenLoad start) := by
  have hSound : AllSound [.answer 0 7, .load 0, .store 0 7] :=
    ⟨⟨by decide, rfl, by decide⟩, ⟨by decide, .inl rfl⟩, trivial⟩
  obtain ⟨hSafe, hGuarded, hMap⟩ :=
    calls_share_storage 4 (by decide) (fun _ => 0) zeroMemory storeThenLoad
  rw [callsHistory_storeThenLoad] at hMap
  obtain ⟨hNoFault, hAnswered⟩ := hMap.mpr hSound
  refine ⟨callsHistory_storeThenLoad, hSafe, hGuarded, hNoFault, ?_⟩
  rw [callsHistory_storeThenLoad]
  exact hAnswered

end Manhattan.Vm
