import Manhattan.Vm.Rewrites

/-! # DUP and SWAP

`stack_dup` copies the n items from the top down and pushes all of them; `stack_swap`
writes the n + 1 items from the top down back in reverse order. DUPn is thus the
repetition of n items, and SWAPn the reversal of n + 1 items.
-/

namespace Manhattan.Vm

open Library.ExecRules

variable {capacity : Nat} {below items : List Word} {memory : Memory} {storage : Storage}
  {m : Machine} {code : Bytecode}

theorem Machine.Holds.map_fromTop (h : m.Holds capacity (below ++ items) memory storage) :
    (List.range items.length).map m.stack.fromTop = items.reverse := by
  have hTop := h.top
  rw [List.length_append] at hTop
  refine List.ext_getElem (by simp) fun i hi hi' => ?_
  rw [List.length_reverse] at hi'
  rw [List.getElem_map, List.getElem_range, List.getElem_reverse, Stack.fromTop,
    ← getD_items (by omega), h.items,
    show (m.stack.top - (i : Int)).toNat = below.length + (items.length - 1 - i) by omega,
    getD_append_add, List.getD_eq_getElem]

/-! ## DUP -/

theorem forM_stackPush_holds (values : List Word) {xs : List Word}
    (h : m.Holds capacity xs memory storage) (hRoom : xs.length + values.length ≤ capacity) :
    ∃ m', values.forM stackPush m = .ok () m' ∧
      m'.Holds capacity (xs ++ values) memory storage := by
  induction values generalizing xs m with
  | nil => exact ⟨m, rfl, by simpa using h⟩
  | cons v rest ih =>
    rw [List.length_cons] at hRoom
    obtain ⟨m₁, hPush, h₁⟩ := stackPush_holds v h (by omega)
    have hLength : (xs ++ [v]).length = xs.length + 1 := by simp
    obtain ⟨m₂, hRest, h₂⟩ := ih h₁ (by omega)
    rw [List.append_assoc, List.singleton_append] at h₂
    exact ⟨m₂, (bind_of_ok hPush).trans hRest, h₂⟩

theorem forM_stackPush_top {values : List Word} {m' : Machine} {u : PUnit}
    (h : values.forM stackPush m = .ok u m') : m'.stack.top = m.stack.top + values.length := by
  induction values generalizing m with
  | nil =>
    cases h
    simp
  | cons v rest ih =>
    obtain ⟨_, m₁, hPush, hRest⟩ := bind_eq_ok h
    have hPushTop := stackPush_top hPush
    have hRestTop := ih hRest
    rw [hRestTop, hPushTop, List.length_cons]
    push_cast
    omega

theorem stackDup_of_holds (h : m.Holds capacity (below ++ items) memory storage) :
    stackDup items.length m = items.forM stackPush (m.afterReads items.length) := by
  have hTop := h.top
  rw [List.length_append] at hTop
  rw [stackDup_apply, if_neg (by omega), h.map_fromTop, List.reverse_reverse]

/-- DUPn puts the n top items on the stack once more. -/
theorem stackDup_holds (h : m.Holds capacity (below ++ items) memory storage)
    (hRoom : (below ++ items).length + items.length ≤ capacity) :
    ∃ m', stackDup items.length m = .ok () m' ∧
      m'.Holds capacity (below ++ items ++ items) memory storage := by
  rw [stackDup_of_holds h]
  exact forM_stackPush_holds items (h.trace _) hRoom

theorem stackDup_top {m' : Machine} (h : m.Holds capacity (below ++ items) memory storage)
    (hRun : stackDup items.length m = .ok () m') :
    m'.stack.top = m.stack.top + items.length := by
  rw [stackDup_of_holds h] at hRun
  exact (forM_stackPush_top hRun :)

theorem decode_dup {n : Nat} (hn : 1 ≤ n ∧ n ≤ 16) : decode (BitVec.ofNat 8 (0x7f + n)) = .dup n := by
  obtain ⟨hLower, hUpper⟩ := hn
  interval_cases n <;> rfl

theorem cycle_dup {n pc : Nat} (hn : 1 ≤ n ∧ n ≤ 16)
    (hFetch : code.bytes[pc]? = some (BitVec.ofNat 8 (0x7f + n))) (m : Machine) :
    cycle code pc m = andBreak (pc + 1) (stackDup n) (m.fetched pc) := by
  rw [cycle_of_getElem? hFetch, decode_dup hn]
  rfl

/-- DUPn adds the nth item from the top, and nothing else, if and only if n = 1. -/
theorem dup_clones_iff {n pc : Nat} {v : Word} {above : List Word} (hn : 1 ≤ n ∧ n ≤ 16)
    (hFetch : code.bytes[pc]? = some (BitVec.ofNat 8 (0x7f + n))) (hAbove : above.length + 1 = n)
    (h : m.Holds capacity (below ++ v :: above) memory storage)
    (hRoom : (below ++ v :: above).length < capacity) :
    (∃ m', cycle code pc m = .ok (.inl (pc + 1)) m' ∧
      m'.Holds capacity (below ++ v :: above ++ [v]) memory storage) ↔ n = 1 := by
  have hLength : (v :: above).length = n := hAbove
  rw [cycle_dup hn hFetch, ← hLength]
  constructor
  · rintro ⟨m', hRun, h'⟩
    obtain ⟨_, _, hDup, hPure⟩ := bind_eq_ok hRun
    cases hPure
    have hTop := stackDup_top (h.fetched pc) hDup
    have hBefore := (h.fetched pc).top
    have hAfter := h'.top
    rw [List.length_append, List.length_singleton] at hAfter
    omega
  · intro hOne
    obtain rfl : above = [] := List.eq_nil_of_length_eq_zero (Nat.succ.inj hOne)
    obtain ⟨m', hDup, h'⟩ := stackDup_holds (h.fetched pc) hRoom
    exact ⟨m', andBreak_of_ok hDup _, h'⟩

/-- DUP2 over 5 and 6 pushes both. -/
theorem dup_not_clone :
    let s : Stack := { stackCreate 4 (fun i => 5 + BitVec.ofNat 64 i) zeroMemory with top := 1 }
    let r := cycle ⟨[0x81], fun _ => 0⟩ 0 s.machine
    s.items = [5, 6] ∧ outcome r = .ok (.inl 1) ∧ (final r).stack.items = [5, 6, 5, 6] := by
  decide +kernel

theorem dup_clones_iff_one :
    let s : Stack := { stackCreate 4 (fun i => 5 + BitVec.ofNat 64 i) zeroMemory with top := 1 }
    ∃ m', cycle ⟨[0x80], fun _ => 0⟩ 0 s.machine = .ok (.inl 1) m' ∧
      m'.Holds 4 [5, 6, 6] s.memory s.storage := by
  intro s
  have hHolds : s.machine.Holds 4 ([5] ++ 6 :: []) s.memory s.storage :=
    ⟨⟨rfl, rfl, by decide, by decide⟩, by decide, rfl, rfl⟩
  exact (dup_clones_iff (n := 1) (by decide) rfl rfl hHolds (by decide)).mpr rfl

/-! ## SWAP -/

theorem items_eq {s : Stack} {ys : List Word} (hs : s.InRange capacity)
    (hLength : (ys.length : Int) = s.top + 1)
    (h : ∀ j : Nat, (j : Int) ≤ s.top → s.data.getD j 0 = ys.getD j 0) : s.items = ys := by
  have hItems := length_items hs
  refine ext_getD (by omega) fun j hj => ?_
  rw [getD_items (by omega), h j (by omega)]

theorem getD_foldl_set (value : Nat → Word) {top count : Nat} {data : List Word}
    (hCount : count ≤ top + 1) (hTop : top < data.length) (j : Nat) :
    ((List.range count).foldl
        (fun d (i : Nat) => d.set ((top : Int) - (i : Int)).toNat (value i)) data).getD j 0 =
      if top < j + count ∧ j ≤ top then value (top - j) else data.getD j 0 := by
  induction count with
  | zero => rw [List.range_zero, List.foldl_nil, if_neg (by omega)]
  | succ count ih =>
    rw [List.range_succ, List.foldl_append, List.foldl_cons, List.foldl_nil]
    by_cases hj : j + count = top
    -- the cell of the last turn; the turns before have not touched it
    · have hIndex : ((top : Int) - (count : Int)).toNat = j := by omega
      rw [if_pos (by omega), hIndex, show top - j = count by omega]
      exact getD_set_self (by rw [length_foldl_set]; omega) _
    · rw [getD_set_ne (by omega), ih (by omega)]
      exact if_congr (by omega) rfl rfl

/-- The cells up to `top` after the loop that writes the values of `a` back. -/
theorem getD_swapped {n j : Nat} {data : List Word} (hTop : below.length + n < data.length)
    (hItems : items.length = n + 1) (hData : ∀ i ≤ below.length + n,
      data.getD i 0 = (below ++ items).getD i 0) (hj : j ≤ below.length + n) :
    ((List.range (n + 1)).foldl (fun d (i : Nat) =>
        d.set (((below.length + n : Nat) : Int) - (i : Int)).toNat (items.reverse.getD (n - i) 0))
      data).getD j 0 = (below ++ items.reverse).getD j 0 := by
  rw [getD_foldl_set (fun i => items.reverse.getD (n - i) 0) (by omega) hTop]
  split
  · obtain ⟨i, rfl⟩ := Nat.exists_eq_add_of_le (show below.length ≤ j by omega)
    rw [getD_append_add, show n - (below.length + n - (below.length + i)) = i by omega]
  · rw [hData j hj, List.getD_append _ _ _ _ (by omega), List.getD_append _ _ _ _ (by omega)]

/-- SWAPn turns the n + 1 top items around. -/
theorem stackSwap_holds {n : Nat} (hItems : items.length = n + 1)
    (h : m.Holds capacity (below ++ items) memory storage) :
    ∃ m', stackSwap n m = .ok () m' ∧
      m'.Holds capacity (below ++ items.reverse) memory storage := by
  have hTop := h.top
  rw [List.length_append, hItems] at hTop
  obtain ⟨hSize, hCells, hLower, hUpper⟩ := h.inRange
  rw [stackSwap_apply, if_neg (by omega), ← hItems, h.map_fromTop]
  have hNat : m.stack.top = (below.length + n : Nat) := by
    push_cast
    omega
  refine ⟨_, forM_writeData _ _ _ _, ?_⟩
  refine ⟨⟨hSize, ?_, hLower, hUpper⟩, items_eq ⟨hSize, ?_, hLower, hUpper⟩ ?_ fun j hj => ?_,
    h.memory, h.storage⟩
  · exact (length_foldl_set _ _ _ _).trans hCells
  · exact (length_foldl_set _ _ _ _).trans hCells
  · change _ = m.stack.top + 1
    simp [hNat, hItems]
    omega
  · change (j : Int) ≤ m.stack.top at hj
    change List.getD (List.foldl _ _ _) j 0 = _
    rw [hItems, hNat]
    have hData : ∀ i ≤ below.length + n,
        m.stack.data.getD i 0 = (below ++ items).getD i 0 := fun i hi => by
      rw [← h.items, getD_items (by omega)]
    have hLast : below.length + n < m.stack.data.length := by omega
    exact getD_swapped hLast hItems hData (by omega)

/-- The items after SWAPn are the old ones between a new top and a new (n + 1)th item. -/
theorem reversed_between_iff (below : List Word) (v t : Word) (middle : List Word) :
    below ++ (v :: (middle ++ [t])).reverse = below ++ t :: (middle ++ [v]) ↔
      middle.reverse = middle := by
  simp

theorem decode_swap {n : Nat} (hn : 1 ≤ n ∧ n ≤ 16) :
    decode (BitVec.ofNat 8 (0x8f + n)) = .swap n := by
  obtain ⟨hLower, hUpper⟩ := hn
  interval_cases n <;> rfl

theorem replaces_swap {n : Nat} (hn : 1 ≤ n ∧ n ≤ 16) (hItems : items.length = n + 1) :
    Replaces [BitVec.ofNat 8 (0x8f + n)] items items.reverse := by
  refine replaces_opcode (fun code pc => ?_) fun _ _ _ _ _ _ h => stackSwap_holds hItems h
  rw [decode_swap hn]
  rfl

/-- SWAPn exchanges its two items and no others if and only if the n - 1 items between them
read the same in both directions. -/
theorem swap_exchanges_iff {n pc : Nat} {v t : Word} {middle : List Word} (hn : 1 ≤ n ∧ n ≤ 16)
    (hFetch : code.bytes[pc]? = some (BitVec.ofNat 8 (0x8f + n))) (hMiddle : middle.length + 1 = n)
    (h : m.Holds capacity (below ++ v :: (middle ++ [t])) memory storage) :
    (∃ m', cycle code pc m = .ok (.inl (pc + 1)) m' ∧
      m'.Holds capacity (below ++ t :: (middle ++ [v])) memory storage) ↔
      middle.reverse = middle := by
  have hLength : (v :: (middle ++ [t])).length = n + 1 := by simp [hMiddle]
  obtain ⟨m', hSwap, h'⟩ := stackSwap_holds hLength (h.fetched pc)
  have hTurn : cycle code pc m = .ok (.inl (pc + 1)) m' := by
    rw [cycle_of_getElem? hFetch, decode_swap hn]
    exact andBreak_of_ok hSwap _
  rw [← reversed_between_iff below v t, hTurn]
  constructor
  · rintro ⟨m'', hEq, h''⟩
    cases hEq
    exact h'.items.symm.trans h''.items
  · intro hEq
    rw [hEq] at h'
    exact ⟨m', rfl, h'⟩

/-- SWAP3 over 5, 6, 7 and 8 exchanges 6 and 7 as well. -/
theorem swap_not_exchange :
    let s : Stack := { stackCreate 4 (fun i => 5 + BitVec.ofNat 64 i) zeroMemory with top := 3 }
    let r := cycle ⟨[0x92], fun _ => 0⟩ 0 s.machine
    s.items = [5, 6, 7, 8] ∧ outcome r = .ok (.inl 1) ∧
      (final r).stack.items = [8, 7, 6, 5] := by
  decide +kernel

theorem swap_exchanges_iff_two :
    let s : Stack := { stackCreate 4 (fun i => 5 + BitVec.ofNat 64 i) zeroMemory with top := 2 }
    ∃ m', cycle ⟨[0x91], fun _ => 0⟩ 0 s.machine = .ok (.inl 1) m' ∧
      m'.Holds 4 [7, 6, 5] s.memory s.storage := by
  intro s
  have hHolds : s.machine.Holds 4 ([] ++ 5 :: ([6] ++ [7])) s.memory s.storage :=
    ⟨⟨rfl, rfl, by decide, by decide⟩, by decide, rfl, rfl⟩
  exact (swap_exchanges_iff (n := 2) (by decide) rfl rfl hHolds).mpr rfl

end Manhattan.Vm
