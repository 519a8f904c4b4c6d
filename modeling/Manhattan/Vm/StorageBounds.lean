import Manhattan.Vm.Boundaries
import Manhattan.Vm.CaseRules
import Manhattan.Vm.StorageWalk

/-! # Staying inside the storage

SLOAD and SSTORE take the leading byte of their key for an index of the table and add the other
bytes to the pointer they find there, which points to a cell of one element. Whether a key is
safe depends on the key and on the stores before it, also on those of earlier programs.
-/

namespace Manhattan.Vm

open Library.ExecRules

def Touch.InBounds (cells : Nat) : Touch → Prop
  | .entry index entries => index < entries
  | .cell pointer => pointer.cell < cells ∧ pointer.offset = 0

instance (cells : Nat) : (t : Touch) → Decidable (t.InBounds cells)
  | .entry index entries => inferInstanceAs (Decidable (index < entries))
  | .cell pointer => inferInstanceAs (Decidable (pointer.cell < cells ∧ pointer.offset = 0))

/-- Every entry looked at is one of the table, and every pointer that was followed points to the
one element of a cell that an SSTORE has allocated. -/
def Machine.TouchesInside (m : Machine) : Prop :=
  ∀ t ∈ touches m.trace, t.InBounds m.stack.storage.cells.length

instance (m : Machine) : Decidable m.TouchesInside :=
  inferInstanceAs (Decidable (∀ t ∈ touches m.trace, t.InBounds m.stack.storage.cells.length))

/-- A stack of `stackCreate`, after any number of programs that returned. -/
inductive Stack.Reachable : Stack → Prop
  | created (capacity : Nat) (uninit : Fin capacity → Word)
      (memory : { m : Memory // m.size = 32 }) : Reachable (stackCreate capacity uninit memory)
  | executed {s : Stack} {code : Bytecode} {r : Return} {m : Machine} (h : Reachable s)
      (hReturns : Returns code s r m) : Reachable m.stack
  | cleared {s : Stack} (h : Reachable s) : Reachable (stackClear s)

/-- The key leads to an unused entry of the table, or it is 0 and leads to a used one. -/
def Storage.Safe (s : Storage) (key : Word) : Prop :=
  entryOf key < s.table.length ∧ (key = 0 ∨ s.table.getD (entryOf key) none = none)

/-- The instruction at `pc` is an SLOAD or SSTORE that finds its operands, and `key` is its key. -/
def LooksUp (code : Bytecode) (pc : Nat) (s : Stack) (key : Word) : Prop :=
  pc < code.size ∧
    (decode (code.read pc) = .sload ∧ 0 ≤ s.top ∧ key = s.fromTop 0 ∨
      decode (code.read pc) = .sstore ∧ 1 ≤ s.top ∧ key = s.fromTop 1)

/-! ## The table points to allocated cells -/

structure Storage.Sound (s : Storage) : Prop where
  entries : s.table.length = 4
  pointers : ∀ pointer, some pointer ∈ s.table → pointer.cell < s.cells.length ∧ pointer.offset = 0

structure Machine.Contained (m : Machine) : Prop where
  storage : m.stack.storage.Sound
  touches : m.TouchesInside

theorem Storage.Sound.of_getD {s : Storage} (h : s.Sound) {index : Nat} {pointer : CellPtr}
    (hEntry : s.table.getD index none = some pointer) :
    ∃ c < s.cells.length, pointer = ⟨c, 0⟩ := by
  have hMem : some pointer ∈ s.table := by
    rw [List.getD_eq_getElem?_getD] at hEntry
    cases hGet : s.table[index]? with
    | none => simp [hGet] at hEntry
    | some entry =>
      rw [hGet] at hEntry
      exact List.mem_of_getElem? (hGet.trans (congrArg some hEntry))
  obtain ⟨hCell, hOffset⟩ := h.pointers pointer hMem
  exact ⟨pointer.cell, hCell, by rw [← hOffset]⟩

theorem Storage.Sound.fill {s : Storage} (h : s.Sound) (entry : Nat) (value : Word) :
    (s.fill entry value).Sound := by
  constructor
  · rw [Storage.length_table_fill]
    exact h.entries
  · intro pointer hMem
    rw [Storage.length_cells_fill]
    rcases List.mem_or_eq_of_mem_set hMem with hOld | hNew
    · obtain ⟨hCell, hOffset⟩ := h.pointers pointer hOld
      exact ⟨Nat.lt_succ_of_lt hCell, hOffset⟩
    · obtain rfl := Option.some.inj hNew
      exact ⟨Nat.lt_succ_self _, rfl⟩

theorem Touch.InBounds.mono {cells cells' : Nat} {t : Touch} (h : t.InBounds cells)
    (hLe : cells ≤ cells') : t.InBounds cells' := by
  cases t with
  | entry index entries => exact h
  | cell pointer => exact ⟨h.1.trans_le hLe, h.2⟩

theorem Machine.contained_of {m : Machine} {storage : Storage} {touched : List Touch}
    (hStorage : m.stack.storage = storage) (hTouches : Vm.touches m.trace = touched)
    (hSound : storage.Sound) (hInside : ∀ t ∈ touched, t.InBounds storage.cells.length) :
    m.Contained := by
  subst hStorage hTouches
  exact ⟨hSound, hInside⟩

theorem Machine.not_touchesInside {m : Machine} {t : Touch} {touched : List Touch}
    (hTouches : Vm.touches m.trace = t :: touched)
    (hOutside : ¬t.InBounds m.stack.storage.cells.length) : ¬m.TouchesInside := by
  intro hInside
  apply hOutside (hInside t _)
  rw [hTouches]
  exact List.mem_cons_self

/-! ## One look at the storage -/

variable {m : Machine} {key : Word}

theorem storageLoad_safe (h : m.Contained) (hSafe : m.stack.storage.Safe key) :
    ∃ a m', storageLoad key m = .ok a m' ∧ m'.Contained := by
  obtain ⟨hIndex, hKey⟩ := hSafe
  cases hEntry : m.stack.storage.table.getD (entryOf key) none with
  | none =>
    obtain ⟨m', hRun, hStack, _, hTouches⟩ := storageLoad_unused hIndex hEntry
    refine ⟨0, m', hRun, Machine.contained_of (congrArg Stack.storage hStack) hTouches h.storage ?_⟩
    exact List.forall_mem_cons.mpr ⟨hIndex, List.forall_mem_cons.mpr ⟨hIndex, h.touches⟩⟩
  | some pointer =>
    obtain rfl : key = 0 := hKey.resolve_right (by rw [hEntry]; nofun)
    obtain ⟨c, hCell, rfl⟩ := h.storage.of_getD hEntry
    obtain ⟨m', hRun, hStack, _, hTouches⟩ := storageLoad_used hIndex hEntry
    refine ⟨_, m', hRun, Machine.contained_of (congrArg Stack.storage hStack) hTouches h.storage ?_⟩
    exact List.forall_mem_cons.mpr ⟨⟨hCell, rfl⟩, List.forall_mem_cons.mpr ⟨hIndex, h.touches⟩⟩

theorem storageStore_safe (value : Word) (h : m.Contained) (hSafe : m.stack.storage.Safe key) :
    ∃ m', storageStore key value m = .ok () m' ∧ m'.Contained := by
  obtain ⟨hIndex, hKey⟩ := hSafe
  cases hEntry : m.stack.storage.table.getD (entryOf key) none with
  | none =>
    obtain ⟨m', hRun, hStorage, _, hTouches⟩ := @storageStore_unused key value m hIndex hEntry
    refine ⟨m', hRun, Machine.contained_of hStorage hTouches (h.storage.fill _ _) ?_⟩
    have hOld : ∀ t ∈ touches m.trace, t.InBounds (m.stack.storage.cells.length + 1) :=
      fun t ht => (h.touches t ht).mono (Nat.le_succ _)
    rw [Storage.length_cells_fill]
    exact List.forall_mem_cons.mpr ⟨⟨Nat.lt_succ_self _, rfl⟩,
      List.forall_mem_cons.mpr ⟨hIndex, List.forall_mem_cons.mpr ⟨hIndex, hOld⟩⟩⟩
  | some pointer =>
    obtain rfl : key = 0 := hKey.resolve_right (by rw [hEntry]; nofun)
    obtain ⟨c, hCell, rfl⟩ := h.storage.of_getD hEntry
    obtain ⟨m', hRun, hStorage, _, hTouches⟩ := @storageStore_used value m c hIndex hEntry
    have hCells : (m.stack.storage.cells.set c (lowBits value)).length =
        m.stack.storage.cells.length := List.length_set
    refine ⟨m', hRun, Machine.contained_of hStorage hTouches ⟨h.storage.entries, ?_⟩ ?_⟩
    · rw [hCells]
      exact h.storage.pointers
    · rw [hCells]
      exact List.forall_mem_cons.mpr ⟨⟨hCell, rfl⟩, List.forall_mem_cons.mpr ⟨hIndex, h.touches⟩⟩

/-- A key that is not safe leads past the table, or out of the cell of a used entry. -/
theorem Storage.Sound.unsafe_cases {s : Storage} (h : s.Sound) (hUnsafe : ¬s.Safe key) :
    ¬entryOf key < s.table.length ∨
      entryOf key < s.table.length ∧ key ≠ 0 ∧
        ∃ c, s.table.getD (entryOf key) none = some ⟨c, 0⟩ := by
  rcases lt_or_ge (entryOf key) s.table.length with hIndex | hOutside
  · have hBoth : ¬(key = 0 ∨ s.table.getD (entryOf key) none = none) :=
      fun hKey => hUnsafe ⟨hIndex, hKey⟩
    obtain ⟨hKey, hUsed⟩ := not_or.mp hBoth
    obtain ⟨pointer, hEntry⟩ := Option.ne_none_iff_exists'.mp hUsed
    obtain ⟨c, _, rfl⟩ := h.of_getD hEntry
    exact .inr ⟨hIndex, hKey, c, hEntry⟩
  · exact .inl (not_lt.mpr hOutside)

theorem not_inBounds_away (hKey : key ≠ 0) (c cells : Nat) :
    ¬(Touch.cell ⟨c, keyOffset key⟩).InBounds cells :=
  fun hInside => hKey (keyOffset_eq_zero hInside.2)

theorem storageLoad_unsafe (h : m.Contained) (hUnsafe : ¬m.stack.storage.Safe key) :
    ∃ m', storageLoad key m = .error .fault m' ∧ ¬m'.TouchesInside := by
  rcases h.storage.unsafe_cases hUnsafe with hOutside | ⟨hIndex, hKey, c, hEntry⟩
  · obtain ⟨m', hRun, _, hTouches⟩ := storageLoad_outside hOutside
    exact ⟨m', hRun, Machine.not_touchesInside hTouches hOutside⟩
  · obtain ⟨m', hRun, _, hTouches⟩ := storageLoad_away hKey hIndex hEntry
    exact ⟨m', hRun, Machine.not_touchesInside hTouches (not_inBounds_away hKey c _)⟩

theorem storageStore_unsafe (value : Word) (h : m.Contained) (hUnsafe : ¬m.stack.storage.Safe key) :
    ∃ m', storageStore key value m = .error .fault m' ∧ ¬m'.TouchesInside := by
  rcases h.storage.unsafe_cases hUnsafe with hOutside | ⟨hIndex, hKey, c, hEntry⟩
  · obtain ⟨m', hRun, _, hTouches⟩ := @storageStore_outside key value m hOutside
    exact ⟨m', hRun, Machine.not_touchesInside hTouches hOutside⟩
  · obtain ⟨m', hRun, _, hTouches⟩ := @storageStore_away key value m c hKey hIndex hEntry
    exact ⟨m', hRun, Machine.not_touchesInside hTouches (not_inBounds_away hKey c _)⟩

/-! ## The other cases -/

theorem contained_emit {e : Event} (h : e.touch = none) :
    Keeps Machine.Contained (fun _ => Machine.Contained) (emit e) := fun _ hm =>
  Machine.contained_of rfl (List.filterMap_cons_none h) hm.storage hm.touches

theorem tolerates_contained : Tolerates Machine.Contained fun _ => Machine.Contained := by
  constructor
  · rintro e ⟨⟩ <;> exact contained_emit rfl
  · exact fun f hf m hm => Machine.contained_of (hf m.stack) rfl hm.storage hm.touches
  · exact fun _ _ hm => hm

theorem Shaped.contained {α : Type} {p : VM α} (h : Shaped p) :
    Keeps Machine.Contained (fun _ => Machine.Contained) p :=
  h.keeps (fun _ hm => tolerates_contained.primitive (fun _ => contained_emit rfl) hm)
    fun _ _ _ hs => hs

theorem caseSLOAD_safe (h : m.Contained)
    (hSafe : 0 ≤ m.stack.top → m.stack.storage.Safe (m.stack.fromTop 0)) :
    (final (caseSLOAD m)).Contained := by
  rcases le_or_gt 0 m.stack.top with hTop | hBelow
  · obtain ⟨m₁, hPop, hStack⟩ := stackPop_fromTop hTop
    have hSafe₁ : m₁.stack.storage.Safe (m.stack.fromTop 0) := by
      rw [hStack]
      exact hSafe hTop
    obtain ⟨a, m₂, hLoad, h₂⟩ := storageLoad_safe (tolerates_contained.stackPop.of_ok h hPop) hSafe₁
    have hRun : caseSLOAD m = stackPush a m₂ := (bind_of_ok hPop).trans (bind_of_ok hLoad)
    rw [hRun]
    exact (tolerates_contained.stackPush a).final h₂
  · have hRun : caseSLOAD m = _ := bind_of_error (stackPop_below (not_le.mpr hBelow))
    rw [hRun]
    exact h

theorem caseSLOAD_unsafe (h : m.Contained) (hTop : 0 ≤ m.stack.top)
    (hUnsafe : ¬m.stack.storage.Safe (m.stack.fromTop 0)) :
    ∃ m', caseSLOAD m = .error .fault m' ∧ ¬m'.TouchesInside := by
  obtain ⟨m₁, hPop, hStack⟩ := stackPop_fromTop hTop
  have hUnsafe₁ : ¬m₁.stack.storage.Safe (m.stack.fromTop 0) := by rwa [hStack]
  obtain ⟨m₂, hLoad, hOutside⟩ :=
    storageLoad_unsafe (tolerates_contained.stackPop.of_ok h hPop) hUnsafe₁
  exact ⟨m₂, (bind_of_ok hPop).trans (bind_of_error hLoad), hOutside⟩

theorem caseSSTORE_below (h : m.Contained) (hTop : ¬1 ≤ m.stack.top) :
    (final (caseSSTORE m)).Contained := by
  rcases le_or_gt 0 m.stack.top with hZero | hEmpty
  · obtain ⟨m₁, hPop, hStack⟩ := stackPop_fromTop hZero
    have hBelow : ¬0 ≤ m₁.stack.top := by
      rw [hStack]
      change ¬0 ≤ m.stack.top - 1
      omega
    have hRun : caseSSTORE m = _ := (bind_of_ok hPop).trans (bind_of_error (stackPop_below hBelow))
    rw [hRun]
    exact tolerates_contained.stackPop.of_ok h hPop
  · have hRun : caseSSTORE m = _ := bind_of_error (stackPop_below (not_le.mpr hEmpty))
    rw [hRun]
    exact h

theorem caseSSTORE_apply (h : m.Contained) (hTop : 1 ≤ m.stack.top) :
    ∃ m₁, caseSSTORE m = storageStore (m.stack.fromTop 1) (m.stack.fromTop 0) m₁ ∧ m₁.Contained ∧
      m₁.stack.storage = m.stack.storage := by
  obtain ⟨m₁, m₂, hFirst, hSecond, hStack⟩ := stackPop_fromTop_two hTop
  have h₁ := tolerates_contained.stackPop.of_ok h hFirst
  exact ⟨m₂, (bind_of_ok hFirst).trans (bind_of_ok hSecond),
    tolerates_contained.stackPop.of_ok h₁ hSecond, by rw [hStack]⟩

theorem caseSSTORE_safe (h : m.Contained)
    (hSafe : 1 ≤ m.stack.top → m.stack.storage.Safe (m.stack.fromTop 1)) :
    (final (caseSSTORE m)).Contained := by
  rcases le_or_gt 1 m.stack.top with hTop | hBelow
  · obtain ⟨m₁, hRun, h₁, hStorage⟩ := caseSSTORE_apply h hTop
    obtain ⟨m₂, hStore, h₂⟩ := storageStore_safe (m.stack.fromTop 0) h₁
      (hStorage ▸ hSafe hTop)
    rw [hRun, hStore]
    exact h₂
  · exact caseSSTORE_below h (not_le.mpr hBelow)

theorem caseSSTORE_unsafe (h : m.Contained) (hTop : 1 ≤ m.stack.top)
    (hUnsafe : ¬m.stack.storage.Safe (m.stack.fromTop 1)) :
    ∃ m', caseSSTORE m = .error .fault m' ∧ ¬m'.TouchesInside := by
  obtain ⟨m₁, hRun, h₁, hStorage⟩ := caseSSTORE_apply h hTop
  rw [hRun]
  exact storageStore_unsafe _ h₁ (hStorage ▸ hUnsafe)

/-! ## Runs -/

variable {code : Bytecode} {pc : Nat}

theorem executeCase_contained (h : m.Contained)
    (hSafe : ∀ key, LooksUp code pc m.stack key → m.stack.storage.Safe key) (hPc : pc < code.size) :
    (final (executeCase code (pc + 1) (decode (code.read pc)) m)).Contained := by
  generalize hOp : decode (code.read pc) = op
  rcases eq_or_ne op .stop with rfl | hStop
  · exact h
  rcases eq_or_ne op .sload with rfl | hSload
  · have hFinal : final (executeCase code (pc + 1) .sload m) = final (caseSLOAD m) :=
      final_bind_pure _ _ _
    rw [hFinal]
    exact caseSLOAD_safe h fun hTop => hSafe _ ⟨hPc, .inl ⟨hOp, hTop, rfl⟩⟩
  rcases eq_or_ne op .sstore with rfl | hSstore
  · have hFinal : final (executeCase code (pc + 1) .sstore m) = final (caseSSTORE m) :=
      final_bind_pure _ _ _
    rw [hFinal]
    exact caseSSTORE_safe h fun hTop => hSafe _ ⟨hPc, .inr ⟨hOp, hTop, rfl⟩⟩
  · exact (shaped_executeCase code (pc + 1) hStop hSload hSstore).contained.final h

theorem executeCase_outside (h : m.Contained) {key : Word} (hLooksUp : LooksUp code pc m.stack key)
    (hUnsafe : ¬m.stack.storage.Safe key) :
    ∃ m', executeCase code (pc + 1) (decode (code.read pc)) m = .error .fault m' ∧
      ¬m'.TouchesInside := by
  obtain ⟨_, ⟨hOp, hTop, rfl⟩ | ⟨hOp, hTop, rfl⟩⟩ := hLooksUp
  · obtain ⟨m', hRun, hOutside⟩ := caseSLOAD_unsafe h hTop hUnsafe
    rw [hOp]
    exact ⟨m', andBreak_of_error hRun _, hOutside⟩
  · obtain ⟨m', hRun, hOutside⟩ := caseSSTORE_unsafe h hTop hUnsafe
    rw [hOp]
    exact ⟨m', andBreak_of_error hRun _, hOutside⟩

theorem Machine.Contained.fetched (h : m.Contained) (pc : Nat) : (m.fetched pc).Contained :=
  Machine.contained_of rfl rfl h.storage h.touches

theorem cycle_contained (h : m.Contained)
    (hSafe : ∀ key, LooksUp code pc m.stack key → m.stack.storage.Safe key) :
    (final (cycle code pc m)).Contained := by
  rcases lt_or_ge pc code.size with hPc | hEnd
  · rw [cycle_of_lt hPc]
    exact executeCase_contained (h.fetched pc) hSafe hPc
  · rw [cycle, if_neg (not_lt.mpr hEnd), final_bind_pure]
    exact tolerates_contained.stackPop.final h

theorem cycle_outside (h : m.Contained) {key : Word} (hLooksUp : LooksUp code pc m.stack key)
    (hUnsafe : ¬m.stack.storage.Safe key) :
    ∃ m', cycle code pc m = .error .fault m' ∧ ¬m'.TouchesInside := by
  rw [cycle_of_lt hLooksUp.1]
  exact executeCase_outside (h.fetched pc) hLooksUp hUnsafe

theorem keepsContained_cycle (code : Bytecode) (pc : Nat) :
    Keeps Machine.Contained (fun _ _ => True) (cycle code pc) := by
  intro m h
  by_cases hSafe : ∀ key, LooksUp code pc m.stack key → m.stack.storage.Safe key
  · have hFinal := cycle_contained h hSafe
    cases hRun : cycle code pc m with
    | ok c m' => rwa [hRun] at hFinal
    | error e m' => trivial
  · push Not at hSafe
    obtain ⟨key, hLooksUp, hUnsafe⟩ := hSafe
    obtain ⟨m', hRun, _⟩ := cycle_outside h hLooksUp hUnsafe
    rw [hRun]
    trivial

theorem Stack.Reachable.sound {s : Stack} (h : s.Reachable) : s.storage.Sound := by
  induction h with
  | created capacity uninit memory =>
    constructor
    · simp [stackCreate, memory.property]
    · intro pointer hMem
      cases List.eq_of_mem_replicate hMem
  | executed h hReturns ih =>
    obtain ⟨n, hRun⟩ := hReturns
    have hFresh : Machine.Contained (Stack.machine _) := ⟨ih, nofun⟩
    exact ((turns_keeps (keepsContained_cycle _) n 0).of_ok hFresh hRun).storage
  | cleared h ih => exact ih

/-- Every access to the storage is in bounds if and only if every key that the run comes to is safe
at that moment. -/
theorem storage_inside_iff (code : Bytecode) {s : Stack} (h : s.Reachable) :
    (∀ n, (final (executeFor code n 0 s.machine)).TouchesInside) ↔
      ∀ n pc m key, executeFor code n 0 s.machine = .ok (.inl pc) m →
        LooksUp code pc m.stack key → m.stack.storage.Safe key := by
  let Bad (pc : Nat) (m : Machine) : Prop :=
    ∃ key, LooksUp code pc m.stack key ∧ ¬m.stack.storage.Safe key
  have hGood : ∀ pc m, m.Contained → ¬Bad pc m → (final (cycle code pc m)).Contained := by
    intro pc m hm hNot
    refine cycle_contained hm fun key hLooksUp => ?_
    by_contra hUnsafe
    exact hNot ⟨key, hLooksUp, hUnsafe⟩
  have hBad : ∀ pc m, m.Contained → Bad pc m → ¬(final (cycle code pc m)).TouchesInside := by
    rintro pc m hm ⟨key, hLooksUp, hUnsafe⟩
    obtain ⟨m', hRun, hOutside⟩ := cycle_outside hm hLooksUp hUnsafe
    rwa [hRun]
  have hFresh : s.machine.Contained := ⟨h.sound, nofun⟩
  refine (turns_forall_iff (fun _ => Machine.Contained.touches) hGood hBad 0 hFresh).trans ?_
  constructor
  · intro hNone n pc m key hRun hLooksUp
    by_contra hUnsafe
    exact hNone n pc m hRun ⟨key, hLooksUp, hUnsafe⟩
  · rintro hAll n pc m hRun ⟨key, hLooksUp, hUnsafe⟩
    exact hUnsafe (hAll n pc m key hRun hLooksUp)

/-- NOT of 0 leads to entry 255 of four; and SLOAD 1 leaves the cell of SSTORE 1 by four elements. -/
theorem storage_outside :
    let run bytes :=
      executeFor ⟨bytes, fun _ => 0⟩ 6 0 (stackCreate 4 (fun _ => 0) zeroMemory).machine
    let past := run [0x5f, 0x19, 0x54]
    let away := run [0x60, 1, 0x60, 7, 0x55, 0x60, 1, 0x54]
    (outcome past = .error .fault ∧ touches (final past).trace = [.entry 255 4] ∧
      ¬(final past).TouchesInside) ∧
    (outcome away = .error .fault ∧
      (touches (final away).trace).take 2 = [.cell ⟨0, 4⟩, .entry 0 4] ∧
      ¬(final away).TouchesInside) := by
  decide +kernel

/-- SLOAD 1 is not safe on the stack on which an earlier program has stored 7 at key 1. -/
theorem storage_inside_iff_reused :
    let stored := executeFor ⟨[0x60, 1, 0x60, 7, 0x55, 0x00], fun _ => 0⟩ 4 0
      (stackCreate 4 (fun _ => 0) zeroMemory).machine
    let code : Bytecode := ⟨[0x60, 1, 0x54], fun _ => 0⟩
    ¬∀ n pc m key, executeFor code n 0 (final stored).stack.machine = .ok (.inl pc) m →
      LooksUp code pc m.stack key → m.stack.storage.Safe key := by
  intro stored code hAll
  have hStop : outcome stored = .ok (.inr ⟨.stop, -1⟩) := by decide +kernel
  have hReachable : (final stored).stack.Reachable :=
    .executed (.created 4 (fun _ => 0) zeroMemory) ⟨4, eq_ok_of_outcome hStop⟩
  have hInside := (storage_inside_iff code hReachable).mpr hAll 2
  revert hInside
  decide +kernel

end Manhattan.Vm
