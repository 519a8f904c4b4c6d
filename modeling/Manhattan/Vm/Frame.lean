import Manhattan.Vm.StackSafety

/-! # Programs do not look below their own items

`Stack.Over base s t` says that `t` is `s` with the items `base` beneath it and as much
more room. Every primitive that returns from `s` returns the same from `t` and keeps the
relation, so whole runs stay in lock-step.
-/

namespace Manhattan.Vm

open Library.ExecRules

structure Stack.Over (base : List Word) (s t : Stack) : Prop where
  lower : -1 ≤ s.top
  upper : s.top ≤ s.size - 1
  cells : s.data.length = s.size
  size : t.size = s.size + base.length
  top : t.top = s.top + base.length
  cells' : t.data.length = t.size
  below : ∀ i < base.length, t.data.getD i 0 = base.getD i 0
  above : ∀ i : Nat, (i : Int) ≤ s.top → t.data.getD (base.length + i) 0 = s.data.getD i 0
  memory : t.memory = s.memory
  storage : t.storage = s.storage

structure Machine.Over (base : List Word) (m k : Machine) : Prop where
  stack : m.stack.Over base k.stack
  fetches : fetches k = fetches m

variable {base : List Word}

theorem fetches_trace (s t : Stack) (trace : List Event) :
    fetches { stack := s, trace := trace } = fetches { stack := t, trace := trace } := rfl

theorem Machine.Over.record {m k : Machine} (h : m.Over base k) {s t : Stack}
    (hStack : s.Over base t) {e e' : Event} (hFetched : e'.fetched = e.fetched) :
    Machine.Over base { stack := s, trace := e :: m.trace } { stack := t, trace := e' :: k.trace } where
  stack := hStack
  fetches := by
    rw [fetches_cons, fetches_cons, hFetched, fetches_trace t k.stack, fetches_trace s m.stack]
    exact congrArg (· ++ _) h.fetches

theorem follows_getStack :
    Follows (Machine.Over base) (Stack.Over base) getStack getStack := by
  intro m k h s m' hEq
  cases hEq
  exact ⟨k.stack, k, rfl, h.stack, h⟩

theorem follows_emit {e e' : Event} (hFetched : e'.fetched = e.fetched) :
    Follows (Machine.Over base) Eq (emit e) (emit e') := by
  intro m k h u m' hEq
  cases hEq
  exact ⟨(), _, rfl, rfl, h.record h.stack hFetched⟩

theorem follows_exitIf {c c' : Prop} [Decidable c] [Decidable c'] (h : c' → c) (message : String) :
    Follows (Machine.Over base) Eq (exitIf c message) (exitIf c' message) := by
  unfold exitIf
  by_cases hc : c
  · rw [if_pos hc]
    exact Follows.throw _ _ _ _
  · rw [if_neg hc, if_neg fun hc' => hc (h hc')]
    exact Follows.pure rfl

theorem follows_modifyStack {f g : Stack → Stack}
    (h : ∀ s t : Stack, s.Over base t → (f s).Over base (g t)) :
    Follows (Machine.Over base) Eq (modifyStack f) (modifyStack g) := by
  intro m k hOver u m' hEq
  cases hEq
  exact ⟨(), _, rfl, rfl, h _ _ hOver.stack, hOver.fetches⟩

/-! ## The stack helpers -/

theorem Stack.Over.set {s t : Stack} (h : s.Over base t) {i : Nat} (value : Word)
    (hi : (i : Int) < s.size) :
    Stack.Over base { s with data := s.data.set i value }
      { t with data := t.data.set (base.length + i) value } where
  lower := h.lower
  upper := h.upper
  cells := by simpa using h.cells
  size := h.size
  top := h.top
  cells' := by simpa using h.cells'
  below j hj := by
    rw [← h.below j hj]
    exact getD_set_ne (by omega) _ _
  above j hj := by
    have hCells := h.cells
    have hCells' := h.cells'
    have hSize := h.size
    by_cases hji : j = i
    · subst hji
      exact (getD_set_self (by omega) value).trans (getD_set_self (by omega) value).symm
    · refine (getD_set_ne (by omega) _ _).trans ?_
      exact (h.above j hj).trans (getD_set_ne (by omega) _ _).symm
  memory := h.memory
  storage := h.storage

theorem Stack.Over.pop {s t : Stack} (h : s.Over base t) (hTop : ¬s.top < 0) :
    Stack.Over base { s with top := s.top - 1 } { t with top := t.top - 1 } where
  lower := by
    change -1 ≤ s.top - 1
    omega
  upper := by
    have hUpper := h.upper
    change s.top - 1 ≤ s.size - 1
    omega
  cells := h.cells
  size := h.size
  top := by
    have hTop' := h.top
    change t.top - 1 = s.top - 1 + base.length
    omega
  cells' := h.cells'
  below := h.below
  above j hj := h.above j (by
    change (j : Int) ≤ s.top - 1 at hj
    omega)
  memory := h.memory
  storage := h.storage

theorem Stack.Over.push {s t : Stack} (h : s.Over base t) (value : Word)
    (hRoom : ¬s.top ≥ s.size - 1) :
    Stack.Over base
      { s with top := s.top + 1, data := s.data.set (s.top + 1).toNat value }
      { t with top := t.top + 1, data := t.data.set (t.top + 1).toNat value } := by
  have hLower := h.lower
  have hTop := h.top
  have hSize := h.size
  have hCells := h.cells
  have hCells' := h.cells'
  have hIndex : (t.top + 1).toNat = base.length + (s.top + 1).toNat := by omega
  rw [hIndex]
  have hSet := h.set (i := (s.top + 1).toNat) value (by omega)
  refine ⟨?_, ?_, hSet.cells, h.size, ?_, hSet.cells', hSet.below, ?_, h.memory, h.storage⟩
  · change -1 ≤ s.top + 1
    omega
  · change s.top + 1 ≤ s.size - 1
    omega
  · change t.top + 1 = s.top + 1 + base.length
    omega
  · intro j hj
    change (j : Int) ≤ s.top + 1 at hj
    by_cases hNew : j = (s.top + 1).toNat
    · subst hNew
      exact (getD_set_self (by omega) value).trans (getD_set_self (by omega) value).symm
    · exact hSet.above j (by
        change (j : Int) ≤ s.top
        omega)

theorem Stack.Over.fromTop {s t : Stack} (h : s.Over base t) {i : Nat} (hi : (i : Int) ≤ s.top) :
    t.fromTop i = s.fromTop i := by
  have hTop := h.top
  have hIndex : (t.top - (i : Int)).toNat = base.length + (s.top - (i : Int)).toNat := by omega
  unfold Stack.fromTop
  rw [hIndex]
  exact h.above _ (by omega)

theorem follows_stackPush (value : Word) :
    Follows (Machine.Over base) Eq (stackPush value) (stackPush value) := by
  intro m k h u m' hEq
  have hStack := h.stack
  have hTop := hStack.top
  have hSize := hStack.size
  rw [stackPush_apply] at hEq
  split at hEq
  · cases hEq
  · rename_i hRoom
    cases hEq
    refine ⟨(), _, (stackPush_apply value k).trans (if_neg ?_), rfl, ?_⟩
    · omega
    · exact h.record (hStack.push value hRoom) rfl

theorem follows_stackPop : Follows (Machine.Over base) Eq stackPop stackPop := by
  intro m k h a m' hEq
  have hStack := h.stack
  have hTop := hStack.top
  rw [stackPop_apply] at hEq
  split at hEq
  · cases hEq
  · rename_i hDepth
    cases hEq
    refine ⟨_, _, (stackPop_apply k).trans (if_neg ?_), ?_, ?_⟩
    · omega
    · have hValue := hStack.fromTop (i := 0) (by push_cast; omega)
      simpa [Stack.fromTop] using hValue.symm
    · exact h.record (hStack.pop hDepth) rfl

theorem follows_casePOP : Follows (Machine.Over base) Eq casePOP casePOP := by
  intro m k h u m' hEq
  have hStack := h.stack
  have hTop := hStack.top
  rw [casePOP_apply] at hEq
  split at hEq
  · cases hEq
  · rename_i hDepth
    cases hEq
    refine ⟨(), _, (casePOP_apply k).trans (if_neg ?_), rfl, ?_⟩
    · omega
    · exact ⟨hStack.pop hDepth, h.fetches⟩

theorem follows_require (depth : Int) (operation : String) :
    Follows (Machine.Over base) Eq (require depth operation) (require depth operation) := by
  apply follows_getStack.bind
  intro s t h
  have hTop := h.top
  exact follows_exitIf (by omega) _

theorem fetches_afterReads (m : Machine) (count : Nat) : fetches (m.afterReads count) = fetches m := by
  have hNone : ((List.range count).map fun i : Nat =>
      Event.dataRead (m.stack.top - (i : Int)) m.stack.top).filterMap Event.fetched = [] := by
    rw [List.filterMap_map, List.filterMap_eq_nil_iff]
    intro i _
    rfl
  simp only [fetches, Machine.afterReads, List.reverse_append, List.reverse_reverse,
    List.filterMap_append, hNone, List.append_nil]

theorem Machine.Over.afterReads {m k : Machine} (h : m.Over base k) (count : Nat) :
    (m.afterReads count).Over base (k.afterReads count) where
  stack := h.stack
  fetches := by rw [fetches_afterReads, fetches_afterReads, h.fetches]

theorem Stack.Over.map_fromTop {s t : Stack} (h : s.Over base t) {count : Nat}
    (hCount : (count : Int) ≤ s.top + 1) :
    (List.range count).map t.fromTop = (List.range count).map s.fromTop := by
  refine List.map_congr_left fun i hi => h.fromTop ?_
  have hLt := List.mem_range.mp hi
  omega

theorem follows_stackDup (x : Nat) :
    Follows (Machine.Over base) Eq (stackDup x) (stackDup x) := by
  intro m k h u m' hEq
  have hTop := h.stack.top
  rw [stackDup_apply] at hEq
  split at hEq
  · cases hEq
  · rename_i hDepth
    rw [stackDup_apply, if_neg (by omega), h.stack.map_fromTop (by omega)]
    exact Follows.forM _ (fun value _ => follows_stackPush value) _ _ (h.afterReads x) u m' hEq

theorem forM_writeData_over (indices : List Nat) (value : Nat → Word) {m k : Machine}
    (h : m.Over base k) (hIndices : ∀ i ∈ indices, (i : Int) ≤ m.stack.top) {u : PUnit}
    {m' : Machine}
    (hEq : (indices.forM fun i : Nat => writeData (m.stack.top - (i : Int)) (value i)) m =
      .ok u m') :
    ∃ k', (indices.forM fun i : Nat => writeData (k.stack.top - (i : Int)) (value i)) k =
      .ok u k' ∧ m'.Over base k' := by
  induction indices generalizing m k with
  | nil =>
    cases hEq
    exact ⟨k, rfl, h⟩
  | cons i rest ih =>
    have hTop := h.stack.top
    have hUpper := h.stack.upper
    have hi := hIndices i List.mem_cons_self
    have hIndex : (k.stack.top - (i : Int)).toNat =
        base.length + (m.stack.top - (i : Int)).toNat := by omega
    have hSet := h.stack.set (i := (m.stack.top - (i : Int)).toNat) (value i) (by omega)
    rw [← hIndex] at hSet
    obtain ⟨_, m₁, hHead, hTail⟩ := bind_eq_ok hEq
    cases hHead
    have hFetched : (Event.dataWrite (k.stack.top - (i : Int))).fetched =
        (Event.dataWrite (m.stack.top - (i : Int))).fetched := rfl
    have hStep := h.record hSet hFetched
    obtain ⟨k', hRest, hOver⟩ := ih hStep (fun j hj => hIndices j (List.mem_cons_of_mem _ hj)) hTail
    exact ⟨k', (bind_of_ok (writeData_apply _ _ _)).trans hRest, hOver⟩

theorem follows_stackSwap (x : Nat) :
    Follows (Machine.Over base) Eq (stackSwap x) (stackSwap x) := by
  intro m k h u m' hEq
  have hTop := h.stack.top
  rw [stackSwap_apply] at hEq
  split at hEq
  · cases hEq
  · rename_i hDepth
    rw [stackSwap_apply, if_neg (by omega), h.stack.map_fromTop (by push_cast; omega)]
    have hIndices : ∀ i ∈ List.range (x + 1), (i : Int) ≤ m.stack.top := by
      intro i hi
      have hLt := List.mem_range.mp hi
      omega
    obtain ⟨k', hRun, hOver⟩ := forM_writeData_over _ _ (h.afterReads (x + 1)) hIndices hEq
    exact ⟨u, k', hRun, rfl, hOver⟩

/-! ## Memory, LOG and storage -/

theorem follows_memorySize : Follows (Machine.Over base) Eq memorySize memorySize := by
  apply follows_getStack.bind
  intro s t h
  rw [h.memory]
  exact Follows.pure rfl

theorem follows_readMemory (index : Nat) :
    Follows (Machine.Over base) Eq (readMemory index) (readMemory index) := by
  apply follows_getStack.bind
  intro s t h
  rw [h.memory]
  exact (follows_emit rfl).bind fun _ _ _ => Follows.pure rfl

theorem follows_writeMemory (index : Nat) (value : Byte) :
    Follows (Machine.Over base) Eq (writeMemory index value) (writeMemory index value) := by
  apply follows_getStack.bind
  intro s t h
  refine Follows.bind (follows_emit rfl) fun _ _ _ => ?_
  refine follows_modifyStack fun s t h => { h with memory := ?_ }
  rw [h.memory]

theorem follows_stackLog (topicCount : Nat) :
    Follows (Machine.Over base) Eq (stackLog topicCount) (stackLog topicCount) := by
  apply follows_getStack.bind
  intro s t h
  have hTop := h.top
  rw [h.memory]
  refine (follows_exitIf (by omega) _).bind fun _ _ _ => ?_
  apply follows_stackPop.bind
  rintro offset _ rfl
  apply follows_stackPop.bind
  rintro size _ rfl
  refine (Follows.mapM _ fun _ _ => follows_stackPop).bind ?_
  rintro topics _ rfl
  refine (follows_exitIf (fun hc => hc) _).bind fun _ _ _ => ?_
  refine Follows.bind (V := Eq) (Follows.mapM _ fun i _ => ?_) ?_
  · apply follows_getStack.bind
    intro s t h
    rw [h.memory]
    exact follows_readMemory _
  · rintro data _ rfl
    exact follows_emit rfl

theorem follows_checkCell (pointer : CellPtr) :
    Follows (Machine.Over base) Eq (checkCell pointer) (checkCell pointer) := by
  refine (follows_emit rfl).bind fun _ _ _ => ?_
  by_cases h : pointer.offset = 0
  · simp only [if_pos h]
    exact Follows.pure rfl
  · simp only [if_neg h]
    exact Follows.throw _ _ _ _

theorem follows_loadAddress (a : StorageAddress) :
    Follows (Machine.Over base) Eq (loadAddress a) (loadAddress a) := by
  cases a with
  | entry index =>
    apply follows_getStack.bind
    intro s t h
    rw [h.storage]
    refine (follows_emit rfl).bind fun _ _ _ => ?_
    by_cases hIndex : index < s.storage.table.length
    · simp only [if_pos hIndex]
      exact Follows.pure rfl
    · simp only [if_neg hIndex]
      exact Follows.throw _ _ _ _
  | temp pointer => exact Follows.pure rfl

theorem follows_primitive {α : Type} (m : VM α) (h : Primitive α m) :
    Follows (Machine.Over base) Eq m m := by
  cases h with
  | push value => exact follows_stackPush value
  | pop => exact follows_stackPop
  | require depth operation => exact follows_require depth operation
  | casePOP => exact follows_casePOP
  | dup x => exact follows_stackDup x
  | swap x => exact follows_stackSwap x
  | log topicCount => exact follows_stackLog topicCount
  | memorySize => exact follows_memorySize
  | readMemory index => exact follows_readMemory index
  | writeMemory index value => exact follows_writeMemory index value
  | immediate offset => exact follows_emit rfl

theorem follows_storagePrimitive {α : Type} (m : VM α) (h : StoragePrimitive α m) :
    Follows (Machine.Over base) Eq m m := by
  cases h with
  | sload key => exact follows_emit rfl
  | loaded key value => exact follows_emit rfl
  | sstore key value => exact follows_emit rfl
  | loadAddress a => exact follows_loadAddress a
  | readCell pointer =>
    refine (follows_checkCell pointer).bind fun _ _ _ => follows_getStack.bind ?_
    intro s t h
    rw [h.storage]
    exact Follows.pure rfl
  | writeCell pointer value =>
    refine (follows_checkCell pointer).bind fun _ _ _ => ?_
    refine follows_modifyStack fun s t h => { h with storage := ?_ }
    rw [h.storage]
  | allocateCell =>
    apply follows_getStack.bind
    intro s t h
    rw [h.storage]
    refine Follows.bind (V := Eq) ?_ fun _ _ _ => Follows.pure rfl
    refine follows_modifyStack fun s t h => { h with storage := ?_ }
    rw [h.storage]
  | setAddress a pointer =>
    cases a with
    | entry index =>
      have hSet : Follows (Machine.Over base) Eq
          (modifyStack fun s => { s with storage.table := s.storage.table.set index (some pointer) })
          (modifyStack fun s => { s with storage.table := s.storage.table.set index (some pointer) }) := by
        refine follows_modifyStack fun s t h => { h with storage := ?_ }
        rw [h.storage]
      exact hSet
    | temp _ => exact Follows.pure rfl

/-! ## Runs -/

/-- STOP returns an index, which moves with the base; every other value stays. -/
structure Return.Same (r r' : Return) : Prop where
  ending : r'.ending = r.ending
  value : r.ending ≠ .stop → r'.value = r.value

theorem Return.Same.refl (r : Return) : r.Same r := ⟨rfl, fun _ => rfl⟩

abbrev Control.Same : Control → Control → Prop := Sum.LiftRel Eq Return.Same

theorem Control.Same.refl (c : Control) : Control.Same c c := by
  cases c with
  | inl pc => exact .inl rfl
  | inr r => exact .inr (.refl r)

theorem follows_executeCase (code : Bytecode) (pc : Nat) (op : Opcode) :
    Follows (Machine.Over base) Control.Same (executeCase code pc op) (executeCase code pc op) := by
  by_cases hStop : op = .stop
  · subst hStop
    apply follows_getStack.bind
    intro s t _
    exact Follows.pure (.inr ⟨rfl, fun h => absurd rfl h⟩)
  · have hFollows : Follows (Machine.Over base) Eq (executeCase code pc op)
        (executeCase code pc op) := (shapedAny_executeCase code pc hStop).follows fun m h =>
      h.elim (follows_primitive m) (follows_storagePrimitive m)
    apply hFollows.mono
    rintro c _ rfl
    exact .refl c

theorem follows_cycle (code : Bytecode) (pc : Nat) :
    Follows (Machine.Over base) Control.Same (cycle code pc) (cycle code pc) := by
  unfold cycle
  split
  · exact (follows_emit rfl).bind fun _ _ _ => follows_executeCase code _ _
  · apply follows_stackPop.bind
    rintro value _ rfl
    exact Follows.pure (.refl _)

theorem follows_executeFor (code : Bytecode) (n pc : Nat) :
    Follows (Machine.Over base) Control.Same (executeFor code n pc) (executeFor code n pc) := by
  refine turns_follows ?_ n rfl
  rintro pc _ rfl
  exact follows_cycle code pc

/-! ## The relation on the contents -/

theorem Stack.Over.of_items {capacity : Nat} {s t : Stack} (hs : s.InRange capacity)
    (ht : t.InRange (capacity + base.length)) (hItems : t.items = base ++ s.items)
    (hMemory : t.memory = s.memory) (hStorage : t.storage = s.storage) : s.Over base t := by
  have hLength := congrArg List.length hItems
  have hs' := length_items hs
  have ht' := length_items ht
  have hSize := hs.size
  have hSize' := ht.size
  have hCells := hs.cells
  have hCells' := ht.cells
  rw [List.length_append] at hLength
  push_cast at hSize'
  refine ⟨hs.lower, hs.upper, by omega, by omega, by omega, by omega, ?_, ?_, hMemory, hStorage⟩
  · intro i hi
    rw [← getD_items (by omega), hItems, List.getD_append _ _ _ _ hi]
  · intro i hi
    rw [← getD_items (by push_cast; omega), hItems, getD_append_add, getD_items hi]

theorem Stack.Over.items {s t : Stack} (h : s.Over base t) : t.items = base ++ s.items := by
  obtain ⟨hLower, hUpper, hCells, hSize, hTop, hCells', hBelow, hAbove, _, _⟩ := h
  have hLength : t.items.length = base.length + s.items.length := by
    rw [Stack.items, Stack.items, List.length_take, List.length_take]
    omega
  have hLength' : s.items.length = (s.top + 1).toNat := by
    rw [Stack.items, List.length_take]
    omega
  refine ext_getD (by rw [hLength, List.length_append]) fun i hi => ?_
  rw [getD_items (by omega)]
  by_cases hBase : i < base.length
  · rw [hBelow i hBase, List.getD_append _ _ _ _ hBase]
  · obtain ⟨j, rfl⟩ := Nat.exists_eq_add_of_le (Nat.le_of_not_lt hBase)
    rw [getD_append_add, hAbove j (by omega), getD_items (by omega)]

/-- A run that returns is repeated on top of any further items: the same fetches, the same
ending and memory, and the further items untouched beneath the same contents. -/
theorem returns_over (code : Bytecode) (capacity : Nat) (base : List Word) (s t : Stack)
    (hs : s.InRange capacity) (ht : t.InRange (capacity + base.length))
    (hItems : t.items = base ++ s.items) (hMemory : t.memory = s.memory)
    (hStorage : t.storage = s.storage) (r : Return) (m : Machine) (h : Returns code s r m) :
    ∃ r' k, Returns code t r' k ∧ fetches k = fetches m ∧ r'.ending = r.ending ∧
      k.stack.memory = m.stack.memory ∧ k.stack.items = base ++ m.stack.items ∧
      (r.ending ≠ .stop → r'.value = r.value) := by
  obtain ⟨n, hRun⟩ := h
  have hStart : s.machine.Over base t.machine :=
    ⟨.of_items hs ht hItems hMemory hStorage, rfl⟩
  obtain ⟨c, k, hRun', hSame, hOver⟩ := follows_executeFor code n 0 _ _ hStart _ _ hRun
  obtain _ | hSame := hSame
  exact ⟨_, k, ⟨n, hRun'⟩, hOver.fetches, hSame.ending, hOver.stack.memory, hOver.stack.items,
    hSame.value⟩

theorem returns_over_add :
    let code : Bytecode := ⟨[0x60, 1, 0x60, 2, 0x01], fun _ => 0⟩
    let s := stackCreate 4 (fun _ => 5) zeroMemory
    let t : Stack := { stackCreate 5 (fun _ => 9) zeroMemory with top := 0 }
    let m := final (executeFor code 4 0 s.machine)
    ∃ r' k, Returns code t r' k ∧ fetches k = fetches m ∧ r'.ending = .fellOff ∧
      k.stack.memory = m.stack.memory ∧ k.stack.items = [9] ++ m.stack.items ∧
      (Ending.fellOff ≠ .stop → r'.value = 3) := by
  intro code s t m
  have hs : s.InRange 4 := ⟨rfl, rfl, by decide, by decide⟩
  have ht : t.InRange (4 + [(9 : Word)].length) := ⟨rfl, rfl, by decide, by decide⟩
  have hRun : Returns code s ⟨.fellOff, 3⟩ m := ⟨4, eq_ok_of_outcome (by decide +kernel)⟩
  exact returns_over code 4 [9] s t hs ht rfl rfl rfl ⟨.fellOff, 3⟩ m hRun

end Manhattan.Vm
