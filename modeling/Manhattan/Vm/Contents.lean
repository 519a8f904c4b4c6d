import Manhattan.Vm.Execute

/-! # The stack as a list

`Stack.items` are the live cells, deepest item first; what lies above `top` is left over
and says nothing. `Machine.Holds` describes a machine by its contents, and the helpers
are restated on contents, so that the cases can be run without looking at the cells.
-/

namespace Manhattan.Vm

open Library.ExecRules

structure Stack.InRange (capacity : Nat) (s : Stack) : Prop where
  size : s.size = capacity
  cells : s.data.length = capacity
  lower : -1 ≤ s.top
  upper : s.top ≤ s.size - 1

/-- The contents of the stack, deepest item first. -/
def Stack.items (s : Stack) : List Word := s.data.take (s.top + 1).toNat

theorem length_items {capacity : Nat} {s : Stack} (h : s.InRange capacity) :
    (s.items.length : Int) = s.top + 1 := by
  obtain ⟨hSize, hCells, hLower, hUpper⟩ := h
  rw [Stack.items, List.length_take]
  omega

theorem getD_items {s : Stack} {i : Nat} (hi : (i : Int) ≤ s.top) :
    s.items.getD i 0 = s.data.getD i 0 := by
  rw [Stack.items, List.getD_eq_getElem?_getD, List.getElem?_take_of_lt (by omega),
    ← List.getD_eq_getElem?_getD]

theorem getD_append_add (l l' : List Word) (i : Nat) :
    (l ++ l').getD (l.length + i) 0 = l'.getD i 0 := by
  rw [List.getD_append_right _ _ _ _ (by omega), Nat.add_sub_cancel_left]

theorem ext_getD {l l' : List Word} (hLength : l.length = l'.length)
    (h : ∀ i < l.length, l.getD i 0 = l'.getD i 0) : l = l' := by
  refine List.ext_getElem hLength fun i hi hi' => ?_
  have hEq := h i hi
  rwa [List.getD_eq_getElem _ _ hi, List.getD_eq_getElem _ _ hi'] at hEq

theorem getD_set_self {data : List Word} {i : Nat} (hi : i < data.length) (value : Word) :
    (data.set i value).getD i 0 = value := by
  simp [List.getD_eq_getElem?_getD, hi]

theorem getD_set_ne {i j : Nat} (hij : i ≠ j) (data : List Word) (value : Word) :
    (data.set i value).getD j 0 = data.getD j 0 := by
  simp [List.getD_eq_getElem?_getD, hij]

structure Machine.Holds (capacity : Nat) (items : List Word) (memory : Memory) (storage : Storage)
    (m : Machine) : Prop where
  inRange : m.stack.InRange capacity
  items : m.stack.items = items
  memory : m.stack.memory = memory
  storage : m.stack.storage = storage

variable {capacity : Nat} {xs : List Word} {memory : Memory} {storage : Storage} {m : Machine}

theorem Machine.Holds.top (h : m.Holds capacity xs memory storage) :
    m.stack.top = (xs.length : Int) - 1 := by
  have hLength := length_items h.inRange
  rw [h.items] at hLength
  omega

theorem Machine.Holds.trace (h : m.Holds capacity xs memory storage) (trace : List Event) :
    Machine.Holds capacity xs memory storage { stack := m.stack, trace := trace } :=
  ⟨h.inRange, h.items, h.memory, h.storage⟩

theorem stackPop_holds {v : Word} (h : m.Holds capacity (xs ++ [v]) memory storage) :
    ∃ m', stackPop m = .ok v m' ∧ m'.Holds capacity xs memory storage := by
  have hTop := h.top
  rw [List.length_append, List.length_singleton] at hTop
  push_cast at hTop
  obtain ⟨hSize, hCells, hLower, hUpper⟩ := h.inRange
  have hValue : m.stack.data.getD m.stack.top.toNat 0 = v := by
    rw [← getD_items (by omega), h.items, show m.stack.top.toNat = xs.length by omega]
    simp
  refine ⟨_, (stackPop_apply m).trans ((if_neg (by omega)).trans (by rw [hValue])), ?_⟩
  refine ⟨⟨hSize, hCells, ?_, ?_⟩, ?_, h.memory, h.storage⟩
  · change -1 ≤ m.stack.top - 1
    omega
  · change m.stack.top - 1 ≤ m.stack.size - 1
    omega
  · have hItems := h.items
    change m.stack.data.take (m.stack.top - 1 + 1).toNat = xs
    rw [Stack.items, show (m.stack.top + 1).toNat = xs.length + 1 by omega] at hItems
    rw [show (m.stack.top - 1 + 1).toNat = xs.length by omega]
    have hTake := congrArg (List.take xs.length) hItems
    rwa [List.take_take, Nat.min_eq_left (Nat.le_succ _), List.take_left] at hTake

theorem stackPush_holds (v : Word) (h : m.Holds capacity xs memory storage)
    (hRoom : xs.length < capacity) :
    ∃ m', stackPush v m = .ok () m' ∧ m'.Holds capacity (xs ++ [v]) memory storage := by
  have hTop := h.top
  obtain ⟨hSize, hCells, hLower, hUpper⟩ := h.inRange
  refine ⟨_, (stackPush_apply v m).trans (if_neg (by omega)), ?_⟩
  refine ⟨⟨hSize, ?_, ?_, ?_⟩, ?_, h.memory, h.storage⟩
  · simpa using hCells
  · change -1 ≤ m.stack.top + 1
    omega
  · change m.stack.top + 1 ≤ m.stack.size - 1
    omega
  · have hItems := h.items
    change (m.stack.data.set (m.stack.top + 1).toNat v).take (m.stack.top + 1 + 1).toNat = xs ++ [v]
    rw [Stack.items, show (m.stack.top + 1).toNat = xs.length by omega] at hItems
    rw [show (m.stack.top + 1).toNat = xs.length by omega,
      show (m.stack.top + 1 + 1).toNat = xs.length + 1 by omega,
      List.take_add_one, List.take_set_of_le (Nat.le_refl _), hItems, List.getElem?_set_self (by omega)]
    rfl

end Manhattan.Vm
