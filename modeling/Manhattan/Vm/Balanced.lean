import Manhattan.Vm.Halting
import Manhattan.Vm.Heights

/-! # Balanced bytecode

Bytecode is balanced when every offset has one height of the stack that fits its instruction and
that all ways to the next offsets agree on; a jump may lead to every JUMPDEST. Whether it is can be
computed, and it is then never stopped for the height of its stack.
-/

namespace Manhattan.Vm

open Library.ExecRules

variable {code : Bytecode} {capacity pc pc' : Nat} {m m' : Machine}

def Bytecode.jumpdests (code : Bytecode) : List Nat :=
  (List.range code.size).filter fun offset => code.read offset = 0x5b

/-- The offsets at which a run may go on after the instruction at `pc`. -/
def Bytecode.nexts (code : Bytecode) (pc : Nat) : List Nat :=
  if pc < code.size then
    match decode (code.read pc) with
    | .stop | .invalid _ => []
    | .jump => code.jumpdests
    | .jumpi => (pc + 1) :: code.jumpdests
    | op => [pc + 1 + op.immediates]
  else []

/-- Offsets from the end of the code on count as one. -/
def Bytecode.Balanced (code : Bytecode) (capacity : Nat) (heightAt : Nat → Option Nat) : Prop :=
  ∀ pc < code.size + 1, ∀ height ∈ heightAt pc, (code.effectAt pc).Fits capacity height ∧
    ∀ pc' ∈ code.nexts pc, heightAt (min pc' code.size) = some ((code.effectAt pc).after height)

instance (code : Bytecode) (capacity : Nat) (heightAt : Nat → Option Nat) :
    Decidable (code.Balanced capacity heightAt) := by
  unfold Bytecode.Balanced
  infer_instance

theorem mem_jumpdests {a : Word} {c : Nat} (h : jumpTo code a = .inl c) : c ∈ code.jumpdests := by
  obtain ⟨hIn, hByte, rfl⟩ := jumpTo_eq_inl.mp h
  exact List.mem_filter.mpr ⟨List.mem_range.mpr (lt_of_not_outOfBounds hIn), decide_eq_true hByte⟩

theorem caseJUMP_nexts (h : caseJUMP code m = .ok (.inl pc') m') : pc' ∈ code.jumpdests := by
  obtain ⟨a, _, _, hPure⟩ := bind_eq_ok h
  injection hPure with hTo
  exact mem_jumpdests hTo

theorem caseJUMPI_nexts (h : caseJUMPI code pc m = .ok (.inl pc') m') :
    pc' ∈ pc :: code.jumpdests := by
  obtain ⟨b, _, _, hRest⟩ := bind_eq_ok h
  obtain ⟨a, _, _, hPure⟩ := bind_eq_ok hRest
  injection hPure with hTo
  split at hTo
  · exact List.mem_cons_of_mem _ (mem_jumpdests hTo)
  · cases hTo
    exact List.mem_cons_self

theorem cycle_nexts (h : cycle code pc m = .ok (.inl pc') m') : pc' ∈ code.nexts pc := by
  obtain ⟨hPc, -⟩ := cycle_next h
  rw [cycle_of_lt hPc] at h
  rw [Bytecode.nexts, if_pos hPc]
  generalize decode (code.read pc) = op at h
  cases op with
  | stop => cases h
  | invalid opcode => cases h
  | jump => exact caseJUMP_nexts h
  | jumpi => exact caseJUMPI_nexts h
  | _ => exact List.mem_singleton.mpr (executeCase_next nofun nofun h)

theorem effectAt_min (code : Bytecode) (pc : Nat) :
    code.effectAt (min pc code.size) = code.effectAt pc := by
  obtain hLe | hEnd := Nat.le_total pc code.size
  · rw [Nat.min_eq_left hLe]
  · rw [Nat.min_eq_right hEnd, Bytecode.effectAt, Bytecode.effectAt, if_neg (Nat.lt_irrefl _),
      if_neg (not_lt.mpr hEnd)]

theorem Bytecode.Balanced.at {heightAt : Nat → Option Nat} (h : code.Balanced capacity heightAt)
    {height : Nat} (hHeight : heightAt (min pc code.size) = some height) :
    (code.effectAt pc).Fits capacity height ∧
      ∀ pc' ∈ code.nexts pc,
        heightAt (min pc' code.size) = some ((code.effectAt pc).after height) := by
  obtain ⟨hFits, hNexts⟩ := h (min pc code.size) (by omega) height hHeight
  rw [effectAt_min] at hFits hNexts
  refine ⟨hFits, fun pc' hNext => ?_⟩
  obtain hPc | hEnd := Nat.lt_or_ge pc code.size
  · rw [Nat.min_eq_left hPc.le] at hNexts
    exact hNexts pc' hNext
  · rw [Bytecode.nexts, if_neg (not_lt.mpr hEnd)] at hNext
    cases hNext

theorem Bytecode.Balanced.executeFor {heightAt : Nat → Option Nat} {s : Stack}
    (h : code.Balanced capacity heightAt) (hs : s.InRange capacity)
    (hStart : heightAt 0 = some s.machine.height) {n : Nat}
    (hRun : executeFor code n 0 s.machine = .ok (.inl pc) m) :
    heightAt (min pc code.size) = some m.height := by
  induction n generalizing pc m with
  | zero =>
    cases hRun
    rwa [Nat.zero_min]
  | succ n ih =>
    obtain ⟨pc₀, m₀, hBefore, hTurn⟩ := executeFor_eq_inl_succ hRun
    rw [cycle_height (executeFor_inRange hs hBefore) hTurn]
    exact (h.at (ih hBefore)).2 pc (cycle_nexts hTurn)

/-- Balanced bytecode never stops for the height of its stack, however long it runs and whatever is
on the stack, and at each offset the stack has the height of that offset. -/
theorem balanced_never_stops (code : Bytecode) (capacity : Nat) (heightAt : Nat → Option Nat)
    (hBalanced : code.Balanced capacity heightAt) (s : Stack) (hs : s.InRange capacity)
    (hStart : heightAt 0 = some s.machine.height) :
    (∀ n e m, executeFor code n 0 s.machine = .error e m → ¬e.OfStack) ∧
      ∀ n pc m, executeFor code n 0 s.machine = .ok (.inl pc) m →
        heightAt (min pc code.size) = some m.height := by
  refine ⟨fun n e m hRun hStack => ?_, fun n pc m hRun => hBalanced.executeFor hs hStart hRun⟩
  obtain ⟨k, _, pc, m₀, hBefore, hTurn⟩ := turns_error hRun
  have hHeight := hBalanced.executeFor hs hStart hBefore
  have hStops := (cycle_stackStops_iff (executeFor_inRange hs hBefore)).mp ⟨⟨m, hTurn⟩, hStack⟩
  exact hStops.not_fits (hBalanced.at hHeight).1

/-- JUMPDEST, PUSH1 1, SUB, DUP1, PUSH1 0, SWAP1, JUMPI with the counter on the stack and nothing
but the counter where the code ends -/
theorem balanced_never_stops_countdown :
    let code : Bytecode := ⟨[0x5b, 0x60, 1, 0x03, 0x80, 0x60, 0, 0x90, 0x57], fun _ => 0⟩
    let heights := [some 1, some 1, none, some 2, some 1, some 2, none, some 3, some 3, some 1]
    let s : Stack := { stackCreate 3 (fun _ => 9) zeroMemory with top := 0 }
    (∀ n e m, executeFor code n 0 s.machine = .error e m → ¬e.OfStack) ∧
      ∀ n pc m, executeFor code n 0 s.machine = .ok (.inl pc) m →
        heights.getD (min pc code.size) none = some m.height := by
  intro code heights s
  have hBalanced : code.Balanced 3 fun pc => heights.getD pc none := by decide
  exact balanced_never_stops code 3 _ hBalanced s ⟨rfl, rfl, by decide, by decide⟩ rfl

end Manhattan.Vm
