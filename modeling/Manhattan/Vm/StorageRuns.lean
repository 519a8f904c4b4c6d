import Manhattan.Vm.StorageHistory

/-! # Storage over whole runs

`Tracks` ties the table and the cells to the history that led to them. A history stops
being sound in the very step that answers wrongly or leaves the storage, which makes the
description by `AllSound` exact.
-/

namespace Manhattan.Vm

open Library.ExecRules

structure Tracks (older : List Access) (s : Storage) : Prop where
  entries : s.table.length = 4
  unused : ∀ e < 4, lastThrough e older = none → s.table.getD e none = none
  used : ∀ e < 4, ∀ key value, lastThrough e older = some (key, value) →
    ∃ c < s.cells.length, s.table.getD e none = some ⟨c, 0⟩ ∧ s.cells.getD c 0 = lowBits value
  apart : ∀ d < 4, ∀ e < 4, ∀ c, s.table.getD d none = some ⟨c, 0⟩ →
    s.table.getD e none = some ⟨c, 0⟩ → d = e

theorem Tracks.allocated {older : List Access} {s : Storage} (h : Tracks older s) {e c : Nat}
    (he : e < 4) (hEntry : s.table.getD e none = some ⟨c, 0⟩) : c < s.cells.length := by
  cases hLast : lastThrough e older with
  | none =>
    rw [h.unused e he hLast] at hEntry
    cases hEntry
  | some stored =>
    obtain ⟨d, hd, hEntry', _⟩ := h.used e he stored.1 stored.2 hLast
    rw [hEntry] at hEntry'
    cases hEntry'
    exact hd

theorem lastThrough_store_self (key value : Word) (older : List Access) :
    lastThrough (entryOf key) (.store key value :: older) = some (key, value) := if_pos rfl

theorem lastThrough_store_ne {key : Word} {e : Nat} (h : e ≠ entryOf key) (value : Word)
    (older : List Access) : lastThrough e (.store key value :: older) = lastThrough e older :=
  if_neg (Ne.symm h)

theorem Tracks.fill {older : List Access} {s : Storage} (h : Tracks older s) {key : Word}
    (value : Word) (hIndex : entryOf key < 4) :
    Tracks (.store key value :: older) (s.fill (entryOf key) (lowBits value)) := by
  have hTable : entryOf key < s.table.length := h.entries ▸ hIndex
  have hSelf := Storage.entry_fill_self hTable (lowBits value)
  constructor
  · rw [Storage.length_table_fill]
    exact h.entries
  · intro e he hLast
    by_cases hEq : e = entryOf key
    · rw [hEq, lastThrough_store_self] at hLast
      cases hLast
    · rw [lastThrough_store_ne hEq] at hLast
      rw [Storage.entry_fill_ne hEq]
      exact h.unused e he hLast
  · intro e he stored value' hLast
    rw [Storage.length_cells_fill]
    by_cases hEq : e = entryOf key
    · rw [hEq, lastThrough_store_self] at hLast
      cases hLast
      exact ⟨s.cells.length, Nat.lt_succ_self _, hEq ▸ hSelf, Storage.cell_fill_self _ _ _⟩
    · rw [lastThrough_store_ne hEq] at hLast
      obtain ⟨c, hc, hEntry, hValue⟩ := h.used e he stored value' hLast
      exact ⟨c, Nat.lt_succ_of_lt hc, (Storage.entry_fill_ne hEq _ _).trans hEntry,
        (Storage.cell_fill_lt hc _ _).trans hValue⟩
  · intro d hd e he c hFirst hSecond
    by_cases hdEq : d = entryOf key <;> by_cases heEq : e = entryOf key
    · rw [hdEq, heEq]
    · rw [hdEq, hSelf] at hFirst
      rw [Storage.entry_fill_ne heEq] at hSecond
      cases hFirst
      exact absurd (h.allocated he hSecond) (Nat.lt_irrefl _)
    · rw [heEq, hSelf] at hSecond
      rw [Storage.entry_fill_ne hdEq] at hFirst
      cases hSecond
      exact absurd (h.allocated hd hFirst) (Nat.lt_irrefl _)
    · rw [Storage.entry_fill_ne hdEq] at hFirst
      rw [Storage.entry_fill_ne heEq] at hSecond
      exact h.apart d hd e he c hFirst hSecond

theorem Tracks.rewrite {older : List Access} {s : Storage} (h : Tracks older s) {key : Word}
    (value : Word) (hIndex : entryOf key < 4) {c : Nat}
    (hEntry : s.table.getD (entryOf key) none = some ⟨c, 0⟩) :
    Tracks (.store key value :: older) { s with cells := s.cells.set c (lowBits value) } := by
  have hAllocated := h.allocated hIndex hEntry
  constructor
  · exact h.entries
  · intro e he hLast
    by_cases hEq : e = entryOf key
    · rw [hEq, lastThrough_store_self] at hLast
      cases hLast
    · rw [lastThrough_store_ne hEq] at hLast
      exact h.unused e he hLast
  · intro e he stored value' hLast
    by_cases hEq : e = entryOf key
    · rw [hEq, lastThrough_store_self] at hLast
      cases hLast
      refine ⟨c, by simpa using hAllocated, hEq ▸ hEntry, ?_⟩
      simp [hAllocated]
    · rw [lastThrough_store_ne hEq] at hLast
      obtain ⟨d, hd, hEntry', hValue⟩ := h.used e he stored value' hLast
      have hApart : c ≠ d := by
        rintro rfl
        exact hEq (h.apart e he _ hIndex _ hEntry' hEntry)
      refine ⟨d, by simpa using hd, hEntry', ?_⟩
      rw [← hValue]
      simp [hApart]
  · exact h.apart

/-! ## Histories that are not sound stay so -/

def Machine.Astray (m : Machine) : Prop :=
  ¬AllSound (accesses m.trace) ∧ ¬Answered (accesses m.trace)

theorem AllSound.tail {access : Access} {older : List Access} (h : AllSound (access :: older)) :
    AllSound older := by
  cases access with
  | load key => exact h.2
  | answer key value => exact h
  | store key value => exact h.2

theorem Answered.tail {access : Access} {older : List Access} (h : Answered (access :: older)) :
    Answered older := by
  cases access with
  | load key => exact h
  | answer key value => exact h.2
  | store key value => exact h

abbrev KeepsAstray {α : Type} (m : VM α) : Prop :=
  Keeps Machine.Astray (fun _ => Machine.Astray) m

theorem Machine.Astray.of_accesses {m k : Machine} (h : m.Astray)
    (hTrace : accesses k.trace = accesses m.trace) : k.Astray := by
  rw [Machine.Astray, hTrace]
  exact h

theorem keepsAstray_of_quiet {α : Type} {m : VM α} (h : Quiet m) : KeepsAstray m := by
  intro k hk
  have hQuiet := h k k (.refl k)
  cases hRun : m k with
  | ok a k' =>
    rw [hRun] at hQuiet
    exact hk.of_accesses hQuiet.accesses
  | error e k' =>
    rw [hRun] at hQuiet
    exact hk.of_accesses hQuiet.2.accesses

theorem keepsAstray_emit (e : Event) : KeepsAstray (emit e) := by
  intro m h
  cases hAccess : e.access with
  | none => exact h.of_accesses (List.filterMap_cons_none hAccess)
  | some access =>
    have hTrace : accesses (e :: m.trace) = access :: accesses m.trace :=
      List.filterMap_cons_some hAccess
    change ¬AllSound (accesses (e :: m.trace)) ∧ ¬Answered (accesses (e :: m.trace))
    rw [hTrace]
    exact ⟨fun hSound => h.1 hSound.tail, fun hAnswered => h.2 hAnswered.tail⟩

theorem keepsAstray_storagePrimitive {α : Type} (m : VM α) (h : StoragePrimitive α m) :
    KeepsAstray m := by
  apply h.keeps
  · intro e _
    exact keepsAstray_emit e
  · intro m storage hm
    exact hm

theorem ShapedAny.keepsAstray {α : Type} {m : VM α} (h : ShapedAny m) : KeepsAstray m :=
  h.keeps (fun m hm => hm.elim (fun hm => keepsAstray_of_quiet (quiet_primitive m hm))
    (keepsAstray_storagePrimitive m)) fun _ _ _ h => h

/-! ## The two together -/

structure Machine.Faithful (m : Machine) : Prop where
  sound : AllSound (accesses m.trace)
  answered : Answered (accesses m.trace)
  tracks : Tracks (accesses m.trace) m.stack.storage

def Machine.Agrees (m : Machine) : Prop := m.Faithful ∨ m.Astray

def Halt.Agrees (e : Halt) (m : Machine) : Prop :=
  AllSound (accesses m.trace) ↔ e ≠ .fault ∧ Answered (accesses m.trace)

theorem Machine.Astray.halt {m : Machine} (h : m.Astray) (e : Halt) : e.Agrees m :=
  ⟨fun hSound => absurd hSound h.1, fun hEnd => absurd hEnd.2 h.2⟩

abbrev KeepsAgrees {α : Type} (m : VM α) : Prop := Keeps Machine.Agrees Halt.Agrees m

theorem keepsAgrees_of {α : Type} {m : VM α} (hAstray : KeepsAstray m)
    (h : ∀ k : Machine, k.Faithful → Leaves Machine.Agrees Halt.Agrees (m k)) : KeepsAgrees m := by
  rintro k (hk | hk)
  · exact h k hk
  · cases hRun : m k with
    | ok a k' => exact .inr (hAstray.of_ok hk hRun)
    | error e k' => exact (hAstray.of_error hk hRun).halt e

theorem Quiet.keepsAgrees {α : Type} {m : VM α} (h : Quiet m) : KeepsAgrees m := by
  apply keepsAgrees_of (keepsAstray_of_quiet h)
  intro k hk
  have hQuiet := h k k (.refl k)
  cases hRun : m k with
  | ok a k' =>
    rw [hRun] at hQuiet
    obtain ⟨hTrace, _, hStorage⟩ := hQuiet
    refine .inl ⟨?_, ?_, ?_⟩
    · rw [hTrace]
      exact hk.sound
    · rw [hTrace]
      exact hk.answered
    · rw [hTrace, hStorage]
      exact hk.tracks
  | error e k' =>
    rw [hRun] at hQuiet
    obtain ⟨hNoFault, hTrace, _, _⟩ := hQuiet
    change AllSound _ ↔ _
    rw [hTrace]
    exact ⟨fun _ => ⟨hNoFault, hk.answered⟩, fun _ => hk.sound⟩

theorem Machine.agrees_of_history {m : Machine} {history : List Access}
    (hTrace : accesses m.trace = history) (hSound : AllSound history)
    (hAnswered : Answered history) (hTracks : Tracks history m.stack.storage) : m.Agrees := by
  subst hTrace
  exact .inl ⟨hSound, hAnswered, hTracks⟩

theorem Halt.agrees_fault {m : Machine} {history : List Access}
    (hTrace : accesses m.trace = history) (h : ¬AllSound history) : Halt.fault.Agrees m := by
  subst hTrace
  constructor
  · intro hSound
    exact absurd hSound h
  · rintro ⟨hNoFault, _⟩
    exact absurd rfl hNoFault

theorem Tracks.answer {older : List Access} {s : Storage} (h : Tracks older s)
    (key value : Word) : Tracks (.answer key value :: .load key :: older) s :=
  ⟨h.entries, h.unused, h.used, h.apart⟩

/-- Through a used entry only key 0 stays inside its cell. -/
theorem agrees_storageLoad_used {key stored value : Word} {m : Machine} (h : m.Faithful)
    (hIndex : entryOf key < 4)
    (hLast : lastThrough (entryOf key) (accesses m.trace) = some (stored, value)) :
    Leaves Machine.Agrees Halt.Agrees (storageLoad key m) := by
  obtain ⟨hSound, hAnswered, hTracks⟩ := h
  have hTable : entryOf key < m.stack.storage.table.length := hTracks.entries ▸ hIndex
  obtain ⟨c, _, hEntry, hValue⟩ := hTracks.used _ hIndex _ _ hLast
  by_cases hKey : key = 0
  · subst hKey
    obtain ⟨m', hRun, hStack, hTrace, _⟩ := storageLoad_used hTable hEntry
    have hLoad : SoundLoad (accesses m.trace) 0 ↔
        m.stack.storage.cells.getD c 0 = contents (accesses m.trace) 0 := by
      rw [SoundLoad, hLast, hValue, contents_zero_of_used hSound hLast]
      exact ⟨fun h => h.2.2, fun h => ⟨hIndex, rfl, h⟩⟩
    rw [hRun]
    by_cases hRight : SoundLoad (accesses m.trace) 0
    · apply Machine.agrees_of_history hTrace ⟨hRight, hSound⟩ ⟨hLoad.mp hRight, hAnswered⟩
      rw [hStack]
      exact hTracks.answer _ _
    · right
      rw [Machine.Astray, hTrace]
      exact ⟨fun h => hRight h.1, fun h => hRight (hLoad.mpr h.1)⟩
  · obtain ⟨m', hRun, hTrace, _⟩ := storageLoad_away hKey hTable hEntry
    rw [hRun]
    apply Halt.agrees_fault hTrace
    rintro ⟨⟨_, hLoad⟩, _⟩
    rw [hLast] at hLoad
    exact hKey hLoad.1

theorem keepsAgrees_storageLoad (key : Word) : KeepsAgrees (storageLoad key) := by
  apply keepsAgrees_of (stored_storageLoad key).any.keepsAstray
  intro m hFaithful
  obtain ⟨hSound, hAnswered, hTracks⟩ := hFaithful
  by_cases hIndex : entryOf key < 4
  · cases hLast : lastThrough (entryOf key) (accesses m.trace) with
    | none =>
      obtain ⟨m', hRun, hStack, hTrace, _⟩ :=
        storageLoad_unused (hTracks.entries ▸ hIndex) (hTracks.unused _ hIndex hLast)
      have hLoad : SoundLoad (accesses m.trace) key := by
        rw [SoundLoad, hLast]
        exact ⟨hIndex, trivial⟩
      rw [hRun]
      apply Machine.agrees_of_history hTrace ⟨hLoad, hSound⟩
        ⟨(contents_of_unused hLast).symm, hAnswered⟩
      rw [hStack]
      exact hTracks.answer _ _
    | some last => exact agrees_storageLoad_used ⟨hSound, hAnswered, hTracks⟩ hIndex hLast
  · have hTable : ¬entryOf key < m.stack.storage.table.length := hTracks.entries ▸ hIndex
    obtain ⟨m', hRun, hTrace, _⟩ := storageLoad_outside hTable
    rw [hRun]
    exact Halt.agrees_fault hTrace fun h => hIndex h.1.1

theorem keepsAgrees_storageStore (key value : Word) : KeepsAgrees (storageStore key value) := by
  apply keepsAgrees_of (stored_storageStore key value).any.keepsAstray
  rintro m ⟨hSound, hAnswered, hTracks⟩
  by_cases hIndex : entryOf key < 4
  · have hTable : entryOf key < m.stack.storage.table.length := hTracks.entries ▸ hIndex
    cases hLast : lastThrough (entryOf key) (accesses m.trace) with
    | none =>
      obtain ⟨m', hRun, hStorage, hTrace, _⟩ :=
        storageStore_unused hTable (hTracks.unused _ hIndex hLast)
      rw [hRun]
      apply Machine.agrees_of_history hTrace ⟨⟨hIndex, .inl hLast⟩, hSound⟩ hAnswered
      rw [hStorage]
      exact hTracks.fill value hIndex
    | some last =>
      obtain ⟨c, _, hEntry, _⟩ := hTracks.used _ hIndex _ _ hLast
      by_cases hKey : key = 0
      · subst hKey
        obtain ⟨m', hRun, hStorage, hTrace, _⟩ := storageStore_used hTable hEntry
        rw [hRun]
        apply Machine.agrees_of_history hTrace ⟨⟨hIndex, .inr rfl⟩, hSound⟩ hAnswered
        rw [hStorage]
        exact hTracks.rewrite value hIndex hEntry
      · obtain ⟨m', hRun, hTrace, _⟩ := storageStore_away hKey hTable hEntry
        rw [hRun]
        apply Halt.agrees_fault hTrace
        rintro ⟨⟨_, hUnused | hZero⟩, _⟩
        · rw [hLast] at hUnused
          cases hUnused
        · exact hKey hZero
  · have hTable : ¬entryOf key < m.stack.storage.table.length := hTracks.entries ▸ hIndex
    obtain ⟨m', hRun, hTrace, _⟩ := storageStore_outside hTable
    rw [hRun]
    exact Halt.agrees_fault hTrace fun h => hIndex h.1.1

/-! ## Runs -/

theorem keepsAgrees_executeCase (code : Bytecode) (pc : Nat) (op : Opcode) :
    KeepsAgrees (executeCase code pc op) := by
  by_cases hStop : op = .stop
  · subst hStop
    exact (quiet_getStack.bind fun _ => quiet_pure _).keepsAgrees
  · by_cases hSload : op = .sload
    · subst hSload
      exact (quiet_stackPop.keepsAgrees.bind fun a => (keepsAgrees_storageLoad a).bind fun value =>
        (quiet_stackPush value).keepsAgrees).bind fun _ => .pure _
    · by_cases hSstore : op = .sstore
      · subst hSstore
        exact (quiet_stackPop.keepsAgrees.bind fun value => quiet_stackPop.keepsAgrees.bind fun a =>
          keepsAgrees_storageStore a value).bind fun _ => .pure _
      · exact (shaped_executeCase code pc hStop hSload hSstore).quiet.keepsAgrees

theorem keepsAgrees_fetch (pc : Nat) : KeepsAgrees (emit (.fetch pc)) := by
  rintro m (h | h)
  · exact .inl ⟨h.sound, h.answered, h.tracks⟩
  · exact .inr h

theorem keepsAgrees_executeFor (code : Bytecode) (n pc : Nat) :
    KeepsAgrees (executeFor code n pc) := by
  apply turns_keeps
  intro pc
  apply Keeps.ite
  · exact (keepsAgrees_fetch pc).bind fun _ => keepsAgrees_executeCase code _ _
  · exact quiet_stackPop.keepsAgrees.bind fun _ => .pure _

theorem tracks_empty : Tracks [] ⟨List.replicate 4 none, []⟩ := by
  have hEmpty : ∀ e, (List.replicate 4 (none : Option CellPtr)).getD e none = none := by
    intro e
    rw [List.getD_eq_getElem?_getD, List.getElem?_replicate]
    split <;> rfl
  constructor
  · rfl
  · intro e _ _
    exact hEmpty e
  · intro e _ key value hLast
    cases hLast
  · intro d _ e _ c hEntry
    rw [hEmpty d] at hEntry
    cases hEntry

theorem agrees_stackCreate {capacity : Nat} (uninit : Fin capacity → Word)
    (memory : { m : Memory // m.size = 32 }) :
    (stackCreate capacity uninit memory).machine.Agrees := by
  have hStorage : (stackCreate capacity uninit memory).storage = ⟨List.replicate 4 none, []⟩ := by
    simp [stackCreate, memory.property]
  refine .inl ⟨trivial, trivial, ?_⟩
  rw [Stack.machine, hStorage]
  exact tracks_empty

theorem map_iff_of_agrees {α : Type} {r : EStateM.Result Halt Machine α}
    (h : Leaves Machine.Agrees Halt.Agrees r) :
    (outcome r ≠ .error .fault ∧ Answered (accesses (final r).trace)) ↔
      AllSound (accesses (final r).trace) := by
  cases r with
  | ok a m =>
    constructor
    · rintro ⟨-, hAnswered⟩
      exact h.elim Machine.Faithful.sound fun hAstray => absurd hAnswered hAstray.2
    · intro hSound
      exact ⟨nofun, h.elim Machine.Faithful.answered fun hAstray => absurd hSound hAstray.1⟩
  | error e m =>
    have hFault : (outcome (.error e m : EStateM.Result Halt Machine α) ≠ .error .fault) ↔
        e ≠ .fault :=
      not_congr ⟨fun h => Except.error.inj h, fun h => congrArg _ h⟩
    rw [hFault]
    exact Iff.symm h

/-- On a fresh stack and for any number of turns, every SLOAD leaves on the stack what a map holds
for its key and the storage is never left exactly when the history of the run is sound. -/
theorem storage_is_map_iff (code : Bytecode) (capacity : Nat) (uninit : Fin capacity → Word)
    (memory : { m : Memory // m.size = 32 }) (n : Nat) :
    let start := (stackCreate capacity uninit memory).machine
    let history := storageHistory code n 0 start
    (outcome (executeFor code n 0 start) ≠ .error .fault ∧ Answered history) ↔ AllSound history := by
  intro start history
  have hRun := keepsAgrees_executeFor code n 0 _ (agrees_stackCreate uninit memory)
  have hHistory : accesses (final (executeFor code n 0 start)).trace = history ++ [] :=
    accesses_executeFor code n 0 (roomy_stackCreate uninit memory)
  have hMap := map_iff_of_agrees hRun
  rwa [hHistory, List.append_nil] at hMap

/-- SLOAD of key 0 finds the 7 stored at key 1; and the 2^32 stored at key 0 comes back as 0. -/
theorem storage_not_map :
    let start := (stackCreate 4 (fun _ => 0) zeroMemory).machine
    let aliased : Bytecode := ⟨[0x60, 1, 0x60, 7, 0x55, 0x60, 0, 0x54], fun _ => 0⟩
    let truncated : Bytecode := ⟨[0x60, 0, 0x60, 1, 0x60, 32, 0x1b, 0x55, 0x60, 0, 0x54], fun _ => 0⟩
    (outcome (executeFor aliased 6 0 start) = .ok (.inr ⟨.fellOff, 7⟩) ∧
      storageHistory aliased 6 0 start = [.answer 0 7, .load 0, .store 1 7] ∧
      ¬Answered (storageHistory aliased 6 0 start)) ∧
    (outcome (executeFor truncated 8 0 start) = .ok (.inr ⟨.fellOff, 0⟩) ∧
      storageHistory truncated 8 0 start = [.answer 0 0, .load 0, .store 0 (2 ^ 32)] ∧
      ¬Answered (storageHistory truncated 8 0 start)) := by
  decide +kernel

end Manhattan.Vm
