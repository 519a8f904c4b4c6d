import Manhattan.Vm.Contents

/-! # The cases on contents

What one turn of the fetch loop does to a machine that is described by its contents.
-/

namespace Manhattan.Vm

open Library.ExecRules

variable {capacity : Nat} {xs : List Word} {memory : Memory} {storage : Storage} {m : Machine}

theorem Machine.Holds.length_le (h : m.Holds capacity xs memory storage) : xs.length ≤ capacity := by
  have hTop := h.top
  obtain ⟨hSize, _, _, hUpper⟩ := h.inRange
  omega

/-! ## Fetching -/

theorem Bytecode.lt_size_of_getElem? {code : Bytecode} {pc : Nat} {b : Byte}
    (h : code.bytes[pc]? = some b) : pc < code.size := (List.getElem?_eq_some_iff.mp h).1

theorem Bytecode.read_of_getElem? {code : Bytecode} {pc : Nat} {b : Byte}
    (h : code.bytes[pc]? = some b) : code.read pc = b := by
  obtain ⟨hLt, hb⟩ := List.getElem?_eq_some_iff.mp h
  rw [Bytecode.read, dif_pos hLt, hb]

theorem Machine.Holds.fetched (h : m.Holds capacity xs memory storage) (pc : Nat) :
    (m.fetched pc).Holds capacity xs memory storage := h.trace _

theorem cycle_of_getElem? {code : Bytecode} {pc : Nat} {b : Byte} (h : code.bytes[pc]? = some b)
    (m : Machine) : cycle code pc m = executeCase code (pc + 1) (decode b) (m.fetched pc) := by
  rw [cycle_of_lt (Bytecode.lt_size_of_getElem? h), Bytecode.read_of_getElem? h]

theorem andBreak_of_ok {body : VM Unit} {m' : Machine} (h : body m = .ok () m') (pc : Nat) :
    andBreak pc body m = .ok (.inl pc) m' := bind_of_ok h

theorem andBreak_of_error {body : VM Unit} {e : Halt} {m' : Machine} (h : body m = .error e m')
    (pc : Nat) : andBreak pc body m = .error e m' := bind_of_error h

theorem cycle_end {code : Bytecode} {pc : Nat} (hPc : ¬pc < code.size) {v : Word}
    (h : m.Holds capacity (xs ++ [v]) memory storage) :
    ∃ m', cycle code pc m = .ok (.inr ⟨.fellOff, v⟩) m' ∧ m'.Holds capacity xs memory storage := by
  obtain ⟨m', hPop, hHolds⟩ := stackPop_holds h
  refine ⟨m', ?_, hHolds⟩
  rw [cycle, if_neg hPc]
  exact bind_of_ok hPop

theorem stackPush_top {v : Word} {u : Unit} {m' : Machine} (h : stackPush v m = .ok u m') :
    m'.stack.top = m.stack.top + 1 := by
  rw [stackPush_apply] at h
  split at h
  · cases h
  · cases h
    rfl

theorem casePUSH_succ (code : Bytecode) (n pc : Nat) (m : Machine) :
    casePUSH code (n + 1) pc m =
      (stackPush ((code.read pc).setWidth 64) >>= fun _ => casePUSH code n (pc + 1))
        { m with trace := .immediate pc :: m.trace } := rfl

/-! ## Arithmetic -/

theorem stackPop_two {a b : Word} (h : m.Holds capacity (xs ++ [a, b]) memory storage) :
    ∃ m₁ m₂, stackPop m = .ok b m₁ ∧ stackPop m₁ = .ok a m₂ ∧
      m₂.Holds capacity xs memory storage := by
  have hSplit : m.Holds capacity ((xs ++ [a]) ++ [b]) memory storage := by
    rwa [List.append_assoc]
  obtain ⟨m₁, hFirst, h₁⟩ := stackPop_holds hSplit
  obtain ⟨m₂, hSecond, h₂⟩ := stackPop_holds h₁
  exact ⟨m₁, m₂, hFirst, hSecond, h₂⟩

theorem arithmeticCase_holds {operation : Word → Word → VM Word} {a b r : Word}
    (hOperation : ∀ m, operation a b m = .ok r m)
    (h : m.Holds capacity (xs ++ [a, b]) memory storage) :
    ∃ m', arithmeticCase operation m = .ok () m' ∧
      m'.Holds capacity (xs ++ [r]) memory storage := by
  have hLength := h.length_le
  rw [List.length_append] at hLength
  obtain ⟨m₁, m₂, hFirst, hSecond, h₂⟩ := stackPop_two h
  obtain ⟨m₃, hPush, h₃⟩ := stackPush_holds r h₂ (by simp at hLength; omega)
  refine ⟨m₃, ?_, h₃⟩
  calc
    arithmeticCase operation m = _ := bind_of_ok hFirst
    _ = _ := bind_of_ok hSecond
    _ = _ := bind_of_ok (hOperation m₂)
    _ = .ok () m₃ := hPush

theorem arithmeticCase_stops {operation : Word → Word → VM Word} {a b : Word} {e : Halt}
    (hOperation : ∀ m, operation a b m = .error e m)
    (h : m.Holds capacity (xs ++ [a, b]) memory storage) :
    ∃ m', arithmeticCase operation m = .error e m' := by
  obtain ⟨m₁, m₂, hFirst, hSecond, _⟩ := stackPop_two h
  refine ⟨m₂, ?_⟩
  calc
    arithmeticCase operation m = _ := bind_of_ok hFirst
    _ = _ := bind_of_ok hSecond
    _ = .error e m₂ := bind_of_error (hOperation m₂)

end Manhattan.Vm
