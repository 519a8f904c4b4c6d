import Manhattan.Vm.CaseRules
import Manhattan.Vm.Shape

/-! # Reading the code through pc

The loop compares `pc` with the end of the code before it fetches an opcode, and PUSHn reads
its immediates without a comparison. Every read is inside the code if and only if no PUSH with
too few bytes behind it comes to the end of them.
-/

namespace Manhattan.Vm

open Library.ExecRules

def Event.pcRead : Event → Option Nat
  | .fetch offset => some offset
  | .immediate offset => some offset
  | _ => none

/-- Every byte that was read through `pc` is one of the code. -/
def Machine.ReadsInside (code : Bytecode) (m : Machine) : Prop :=
  ∀ offset ∈ m.trace.filterMap Event.pcRead, offset < code.size

instance (code : Bytecode) (m : Machine) : Decidable (m.ReadsInside code) :=
  inferInstanceAs (Decidable (∀ offset ∈ m.trace.filterMap Event.pcRead, offset < code.size))

/-- `casePUSH` with `n` immediates from `pc` on reads behind the code: fewer are left, and the
stack has room for those. -/
def RunsOut (code : Bytecode) (n pc : Nat) (s : Stack) : Prop :=
  code.size - pc < n ∧ (code.size ≤ pc ∨ s.top + (code.size - pc : Nat) < s.size)

/-- The instruction at `pc` is such a PUSH. -/
def PushesOutside (code : Bytecode) (pc : Nat) (s : Stack) : Prop :=
  pc < code.size ∧ ∃ n, decode (code.read pc) = .push n ∧ RunsOut code n (pc + 1) s

variable {code : Bytecode}

/-! ## Programs that do not read through pc -/

theorem Machine.readsInside_cons {s : Stack} {e : Event} {trace : List Event} :
    Machine.ReadsInside code ⟨s, e :: trace⟩ ↔
      (∀ offset ∈ e.pcRead, offset < code.size) ∧ Machine.ReadsInside code ⟨s, trace⟩ := by
  unfold Machine.ReadsInside
  cases h : e.pcRead <;> simp [h]

abbrev KeepsInside (code : Bytecode) {α : Type} (m : VM α) : Prop :=
  Keeps (Machine.ReadsInside code) (fun _ => Machine.ReadsInside code) m

theorem keepsInside_emit {e : Event} (h : e.pcRead = none) : KeepsInside code (emit e) := by
  intro m hm
  refine Machine.readsInside_cons.mpr ⟨?_, hm⟩
  rw [h]
  nofun

theorem tolerates_inside :
    Tolerates (Machine.ReadsInside code) fun _ => Machine.ReadsInside code := by
  constructor
  · rintro e ⟨⟩ <;> exact keepsInside_emit rfl
  · exact fun f _ m h => h
  · exact fun _ _ h => h

theorem keepsInside_fetchless {α : Type} {m : VM α} (h : Fetchless m) : KeepsInside code m := by
  refine h.keeps (fun m hm => ?_) fun _ _ _ hm => hm
  rcases hm with hStack | hMemory | hStorage
  · exact tolerates_inside.stackPrimitive hStack
  · exact tolerates_inside.memoryPrimitive hMemory
  · apply hStorage.keeps
    · rintro e ⟨⟩ <;> exact keepsInside_emit rfl
    · exact fun m storage hm => hm

theorem keepsInside_executeCase (pc : Nat) {op : Opcode} (hPush : ∀ n, op ≠ .push n) :
    KeepsInside code (executeCase code pc op) := by
  rcases eq_or_ne op .stop with rfl | hStop
  · exact Tolerates.getStack.bind fun _ => .pure _
  · exact keepsInside_fetchless (fetchless_executeCase code pc hStop hPush)

/-! ## PUSH -/

theorem tolerates_read (offset : Nat) :
    Tolerates (fun m => offset ∈ m.trace.filterMap Event.pcRead)
      fun _ m => offset ∈ m.trace.filterMap Event.pcRead := by
  constructor
  · rintro e ⟨⟩ m h <;> exact h
  · exact fun f _ m h => h
  · exact fun _ _ h => h

theorem keepsRead_casePUSH (code : Bytecode) (offset n pc : Nat) : Keeps
    (fun m : Machine => offset ∈ m.trace.filterMap Event.pcRead)
    (fun _ m => offset ∈ m.trace.filterMap Event.pcRead) (casePUSH code n pc) := by
  induction n generalizing pc with
  | zero => exact .pure _
  | succ n ih =>
    have hEmit : Keeps (fun m : Machine => offset ∈ m.trace.filterMap Event.pcRead)
        (fun _ m => offset ∈ m.trace.filterMap Event.pcRead) (emit (.immediate pc)) :=
      fun m h => List.mem_cons_of_mem pc h
    exact hEmit.bind fun _ => ((tolerates_read offset).stackPush _).bind fun _ => ih (pc + 1)

theorem stackPush_room {m : Machine} (h : m.stack.top < m.stack.size - 1) (value : Word) :
    ∃ m', stackPush value m = .ok () m' ∧ m'.stack.top = m.stack.top + 1 ∧
      m'.stack.size = m.stack.size :=
  ⟨_, (stackPush_apply value m).trans (if_neg (not_le.mpr h)), rfl, rfl⟩

theorem casePUSH_inside_iff (n pc : Nat) {m : Machine} (h : m.ReadsInside code) :
    (final (casePUSH code n pc m)).ReadsInside code ↔ ¬RunsOut code n pc m.stack := by
  induction n generalizing pc m with
  | zero => exact iff_of_true h fun hOut => absurd hOut.1 (Nat.not_lt_zero _)
  | succ n ih =>
    obtain ⟨m₁, hStack, hTrace, hSucc⟩ : ∃ m₁ : Machine, m₁.stack = m.stack ∧
        m₁.trace = .immediate pc :: m.trace ∧ casePUSH code (n + 1) pc m =
          (stackPush ((code.read pc).setWidth 64) >>= fun _ => casePUSH code n (pc + 1)) m₁ :=
      ⟨⟨m.stack, .immediate pc :: m.trace⟩, rfl, rfl, casePUSH_succ code n pc m⟩
    rw [hSucc, ← hStack]
    rcases lt_or_ge pc code.size with hPc | hPc
    · have hInside : m₁.ReadsInside code := by
        rw [Machine.ReadsInside, hTrace]
        exact List.forall_mem_cons.mpr ⟨hPc, h⟩
      rcases lt_or_ge m₁.stack.top (m₁.stack.size - 1) with hRoom | hFull
      · obtain ⟨m₂, hPush, hTop, hSize⟩ := stackPush_room hRoom ((code.read pc).setWidth 64)
        have hInside₂ := (tolerates_inside.stackPush _).of_ok hInside hPush
        rw [bind_of_ok hPush, ih (pc + 1) hInside₂, RunsOut, RunsOut, hTop, hSize]
        omega
      · rw [bind_of_error ((stackPush_apply _ m₁).trans (if_pos hFull))]
        refine iff_of_true hInside ?_
        rw [RunsOut]
        omega
    · refine iff_of_false (fun hAll => ?_) fun hNot => hNot ⟨by omega, .inl hPc⟩
      have hRead : pc ∈ m₁.trace.filterMap Event.pcRead := by
        rw [hTrace]
        exact List.mem_cons_self
      have hKeeps := ((tolerates_read pc).stackPush ((code.read pc).setWidth 64)).bind fun _ =>
        keepsRead_casePUSH code pc n (pc + 1)
      exact absurd (hAll pc (hKeeps.final hRead)) (Nat.not_lt.mpr hPc)

/-! ## Runs -/

theorem cycle_inside_iff (pc : Nat) (m : Machine) (h : m.ReadsInside code) :
    (final (cycle code pc m)).ReadsInside code ↔ ¬PushesOutside code pc m.stack := by
  rcases lt_or_ge pc code.size with hPc | hPc
  · have hFetched : (m.fetched pc).ReadsInside code := by
      refine Machine.readsInside_cons.mpr ⟨?_, h⟩
      rintro offset ⟨⟩
      exact hPc
    have hOutside : PushesOutside code pc m.stack ↔
        ∃ n, decode (code.read pc) = .push n ∧ RunsOut code n (pc + 1) m.stack := and_iff_right hPc
    rw [cycle_of_lt hPc, hOutside]
    by_cases hCase : ∃ n, decode (code.read pc) = .push n
    · obtain ⟨n, hPush⟩ := hCase
      have hFinal : final (executeCase code (pc + 1) (.push n) (m.fetched pc)) =
          final (casePUSH code n (pc + 1) (m.fetched pc)) := final_bind_pure _ _ _
      rw [hPush, hFinal, casePUSH_inside_iff n (pc + 1) hFetched]
      simp [Machine.fetched]
    · refine iff_of_true ?_ fun ⟨n, hPush, _⟩ => hCase ⟨n, hPush⟩
      exact (keepsInside_executeCase (pc + 1) fun n hPush => hCase ⟨n, hPush⟩).final hFetched
  · refine iff_of_true ?_ fun hOutside => absurd hOutside.1 (Nat.not_lt.mpr hPc)
    rw [cycle, if_neg (Nat.not_lt.mpr hPc), final_bind_pure]
    exact tolerates_inside.stackPop.final h

/-- Every byte read through `pc` is one of the code if and only if the run executes no PUSH that
has too few bytes behind it and room on the stack for those. -/
theorem reads_inside_iff (code : Bytecode) (s : Stack) :
    (∀ n, (final (executeFor code n 0 s.machine)).ReadsInside code) ↔
      ∀ n pc m, executeFor code n 0 s.machine = .ok (.inl pc) m →
        ¬PushesOutside code pc m.stack :=
  turns_forall_iff (fun _ => id) (fun pc m h => (cycle_inside_iff pc m h).mpr)
    (fun pc m h hOutside hAll => (cycle_inside_iff pc m h).mp hAll hOutside) 0 nofun

/-- PUSH2 with one byte behind it -/
theorem reads_outside :
    let code : Bytecode := ⟨[0x61, 1], fun _ => 0⟩
    ¬(final (executeFor code 1 0 (stackCreate 4 (fun _ => 0) zeroMemory).machine)).ReadsInside
      code := by
  decide +kernel

end Manhattan.Vm
