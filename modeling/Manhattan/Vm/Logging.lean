import Manhattan.Library.WordReadings
import Manhattan.Vm.MemorySafety
import Manhattan.Vm.Rewrites

/-! # What LOG prints

The check of LOG compares two pointers after additions that may have wrapped around. It
accepts every range inside the block, and others as well.
-/

namespace Manhattan.Vm

open Library.ExecRules Library.WordReadings

structure Logged where
  topicCount : Nat
  data : List Byte
  topics : List Word
  deriving DecidableEq

def Event.logged : Event → Option Logged
  | .log topicCount data topics => some ⟨topicCount, data, topics⟩
  | _ => none

/-- What has been printed by LOG, the latest first. -/
def Machine.logs (m : Machine) : List Logged := m.trace.filterMap Event.logged

structure Machine.HoldsLogs (capacity : Nat) (items : List Word) (memory : Memory)
    (storage : Storage) (logs : List Logged) (m : Machine) : Prop where
  holds : m.Holds capacity items memory storage
  logs : m.logs = logs

/-- The range lies inside the block. -/
def Memory.Contains (memory : Memory) (offset size : Word) : Prop :=
  0 ≤ offset.toInt ∧ 0 ≤ size.toInt ∧ offset.toInt + size.toInt ≤ memory.size

/-- On offset, size and the topics LOG goes on if and only if the range lies inside the block, and
then it has taken them off and printed the bytes of the range and the topics. -/
def LogsExactly (memory : Memory) (topics : List Word) (offset size : Word) : Prop :=
  ∀ (capacity : Nat) (xs : List Word) (storage : Storage) (logs : List Logged) (m : Machine),
    m.HoldsLogs capacity (xs ++ topics.reverse ++ [size, offset]) memory storage logs →
      ((∃ m', stackLog topics.length m = .ok () m') ↔ memory.Contains offset size) ∧
      (memory.Contains offset size → ∃ m', stackLog topics.length m = .ok () m' ∧
        m'.HoldsLogs capacity xs memory storage (⟨topics.length,
          (memory.data.drop offset.toNat).take size.toNat, topics⟩ :: logs))

variable {memory : Memory} {storage : Storage} {logs : List Logged} {capacity : Nat}
  {xs : List Word}

/-! ## The parts of stack_LOG -/

theorem yields_stackPop (v : Word) :
    Yields (Machine.HoldsLogs capacity (xs ++ [v]) memory storage logs) stackPop v
      (Machine.HoldsLogs capacity xs memory storage logs) := by
  rintro m ⟨hHolds, hLogs⟩
  obtain ⟨m', hPop, h'⟩ := stackPop_holds hHolds
  refine ⟨m', hPop, h', ?_⟩
  rw [stackPop_apply] at hPop
  split at hPop
  · cases hPop
  · cases hPop
    exact hLogs

theorem yields_topics (topics : List Word) {turns : List Nat} (h : turns.length = topics.length) :
    Yields (Machine.HoldsLogs capacity (xs ++ topics.reverse) memory storage logs)
      (turns.mapM fun _ => stackPop) topics
      (Machine.HoldsLogs capacity xs memory storage logs) := by
  induction topics generalizing turns with
  | nil =>
    obtain rfl := List.length_eq_zero_iff.mp h
    rw [List.reverse_nil, List.append_nil]
    exact yields_pure _ []
  | cons topic topics ih =>
    obtain ⟨turn, turns, rfl⟩ := List.exists_cons_of_length_eq_add_one h
    rw [List.mapM_cons, List.reverse_cons, ← List.append_assoc]
    exact (yields_stackPop topic).bind ((ih (Nat.succ.inj h)).bind (yields_pure _ _))

theorem yields_readAddress (ptr : Word) :
    Yields (Machine.HoldsLogs capacity xs memory storage logs) (readAddress ptr)
      (memory.read (ptr - memory.base).toNat)
      (Machine.HoldsLogs capacity xs memory storage logs) := by
  rintro m ⟨hHolds, hLogs⟩
  obtain rfl := hHolds.memory
  exact ⟨_, rfl, hHolds.trace _, hLogs⟩

/-- The bytes that the loop over the pointers comes to. -/
def Memory.between (memory : Memory) (memoryData memoryEnd : Word) : List Byte :=
  (List.range (memoryEnd.toNat - memoryData.toNat)).map fun i =>
    memory.read (memoryData + BitVec.ofNat 64 i - memory.base).toNat

theorem yields_readRange (memoryData memoryEnd : Word) :
    Yields (Machine.HoldsLogs capacity xs memory storage logs) (readRange memoryData memoryEnd)
      (memory.between memoryData memoryEnd)
      (Machine.HoldsLogs capacity xs memory storage logs) :=
  Yields.mapM _ fun _ _ => yields_readAddress _

def Memory.Accepts (memory : Memory) (offset size : Word) : Prop :=
  ¬(memory.base + offset < memory.base ∨
    memory.base + BitVec.ofNat 64 memory.size < memory.base + offset + size)

def printRange (memory : Memory) (topics : List Word) (memoryData memoryEnd : Word) : VM Unit := do
  exitIf (memoryData < memory.base ∨ memory.base + BitVec.ofNat 64 memory.size < memoryEnd)
    "Memory access out of bounds for LOGx.\n"
  let data ← readRange memoryData memoryEnd
  emit (.log topics.length data topics)

theorem stackLog_of_holds {topics : List Word} {offset size : Word} {m : Machine}
    (h : m.HoldsLogs capacity (xs ++ topics.reverse ++ [size, offset]) memory storage logs) :
    ∃ m', m'.HoldsLogs capacity xs memory storage logs ∧ stackLog topics.length m =
      printRange memory topics (memory.base + offset) (memory.base + offset + size) m' := by
  have hTop := h.holds.top
  have hMemory := h.holds.memory
  simp only [List.length_append, List.length_reverse, List.length_cons, List.length_nil] at hTop
  rw [show xs ++ topics.reverse ++ [size, offset] = (xs ++ topics.reverse ++ [size]) ++ [offset] by
    simp] at h
  obtain ⟨m₁, hOffset, h₁⟩ := yields_stackPop offset m h
  obtain ⟨m₂, hSize, h₂⟩ := yields_stackPop size m₁ h₁
  obtain ⟨m₃, hTopics, h₃⟩ :=
    yields_topics topics (List.length_range (n := topics.length)) m₂ h₂
  refine ⟨m₃, h₃, ?_⟩
  obtain rfl := hMemory
  have hEnough : ¬m.stack.top + 1 < (topics.length : Int) + 2 := by omega
  refine (bind_of_ok rfl).trans ((exitIf_bind _ _ _ m).trans ((if_neg hEnough).trans ?_))
  exact (bind_of_ok hOffset).trans ((bind_of_ok hSize).trans (bind_of_ok hTopics))

theorem stackLog_accepts {topics : List Word} {offset size : Word}
    (hAccepts : memory.Accepts offset size) :
    Yields (Machine.HoldsLogs capacity (xs ++ topics.reverse ++ [size, offset]) memory storage logs)
      (stackLog topics.length) () (Machine.HoldsLogs capacity xs memory storage (⟨topics.length,
        memory.between (memory.base + offset) (memory.base + offset + size), topics⟩ :: logs)) := by
  intro m h
  obtain ⟨m₁, h₁, hRest⟩ := stackLog_of_holds h
  obtain ⟨m₂, hRead, h₂⟩ :=
    yields_readRange (memory.base + offset) (memory.base + offset + size) m₁ h₁
  refine ⟨_, ?_, h₂.holds.trace (.log _ _ _ :: m₂.trace), congrArg _ h₂.logs⟩
  rw [hRest]
  exact (exitIf_bind _ _ _ m₁).trans ((if_neg hAccepts).trans (bind_of_ok hRead))

theorem stackLog_rejects {topics : List Word} {offset size : Word} {m : Machine}
    (hRejects : ¬memory.Accepts offset size)
    (h : m.HoldsLogs capacity (xs ++ topics.reverse ++ [size, offset]) memory storage logs) :
    ∃ m', stackLog topics.length m =
      .error (.exit "Memory access out of bounds for LOGx.\n") m' := by
  obtain ⟨m₁, _, hRest⟩ := stackLog_of_holds h
  refine ⟨m₁, ?_⟩
  rw [hRest]
  exact (exitIf_bind _ _ _ m₁).trans (if_pos (not_not.mp hRejects))

theorem stackLog_ok_iff {topics : List Word} {offset size : Word} {m : Machine}
    (h : m.HoldsLogs capacity (xs ++ topics.reverse ++ [size, offset]) memory storage logs) :
    (∃ m', stackLog topics.length m = .ok () m') ↔ memory.Accepts offset size := by
  constructor
  · rintro ⟨m', hOk⟩
    by_contra hRejects
    obtain ⟨_, hStop⟩ := stackLog_rejects hRejects h
    rw [hStop] at hOk
    cases hOk
  · intro hAccepts
    obtain ⟨m', hOk, _⟩ := stackLog_accepts hAccepts m h
    exact ⟨m', hOk⟩

/-! ## What the check accepts -/

/-- The two pointers pass the check although the range is none of the block: an operand is negative
or the end wraps around. -/
structure Memory.Misjudges (memory : Memory) (offset size : Word) : Prop where
  start : 0 ≤ offset.toInt ∧ memory.base.toNat + offset.toInt < 2 ^ 64 ∨
    memory.base.toNat + offset.toInt < 0
  stop : (memory.base.toNat + offset.toInt + size.toInt) % 2 ^ 64 ≤
    memory.base.toNat + memory.size
  outside : offset.toInt < 0 ∨ size.toInt < 0 ∨
    2 ^ 64 ≤ memory.base.toNat + offset.toInt + size.toInt

theorem Memory.accepts_iff (memory : Memory) (offset size : Word) :
    memory.Accepts offset size ↔
      memory.base.toNat ≤ (memory.base.toNat + offset.toNat) % 2 ^ 64 ∧
      (memory.base.toNat + offset.toNat + size.toNat) % 2 ^ 64 ≤
        memory.base.toNat + memory.size := by
  have hFits : memory.base.toNat + memory.size < 2 ^ 64 := memory.fits
  unfold Memory.Accepts
  simp only [BitVec.lt_def, BitVec.toNat_add, BitVec.toNat_ofNat]
  omega

theorem Memory.misjudges_iff (memory : Memory) (offset size : Word) :
    memory.Misjudges offset size ↔ memory.Accepts offset size ∧ ¬memory.Contains offset size := by
  have hFits : memory.base.toNat + memory.size < 2 ^ 64 := memory.fits
  have hOffset := toInt_cases offset
  have hSize := toInt_cases size
  rw [Memory.accepts_iff]
  unfold Memory.Contains
  constructor
  · rintro ⟨hStart, hStop, hOutside⟩
    omega
  · rintro ⟨⟨hStart, hStop⟩, hOutside⟩
    exact ⟨by omega, by omega, by omega⟩

theorem Memory.accepts_of_contains {offset size : Word} (h : memory.Contains offset size) :
    memory.Accepts offset size := by
  have hFits : memory.base.toNat + memory.size < 2 ^ 64 := memory.fits
  have hOffset := toInt_cases offset
  have hSize := toInt_cases size
  unfold Memory.Contains at h
  rw [Memory.accepts_iff]
  omega

theorem Memory.between_of_contains {offset size : Word} (h : memory.Contains offset size) :
    memory.between (memory.base + offset) (memory.base + offset + size) =
      (memory.data.drop offset.toNat).take size.toNat := by
  have hFits : memory.base.toNat + memory.size < 2 ^ 64 := memory.fits
  have hOffset := toInt_cases offset
  have hSize := toInt_cases size
  obtain ⟨hLower, hPositive, hUpper⟩ := h
  have hLength : memory.size = memory.data.length := rfl
  apply List.ext_getElem
  · simp only [Memory.between, List.length_map, List.length_range, List.length_take,
      List.length_drop, BitVec.toNat_add]
    omega
  · intro i hi hi'
    simp only [List.length_take, List.length_drop] at hi'
    have hIndex : (memory.base + offset + BitVec.ofNat 64 i - memory.base).toNat =
        offset.toNat + i := by
      rw [BitVec.toNat_sub, BitVec.toNat_add, BitVec.toNat_add, BitVec.toNat_ofNat]
      omega
    simp only [Memory.between, List.getElem_map, List.getElem_range, hIndex, List.getElem_take,
      List.getElem_drop]
    exact List.getD_eq_getElem _ _ (by omega)

/-! ## LOG -/

theorem logsExactly_of_not_misjudges {offset size : Word} (h : ¬memory.Misjudges offset size)
    (topics : List Word) : LogsExactly memory topics offset size := by
  intro capacity xs storage logs m hHolds
  constructor
  · rw [stackLog_ok_iff hHolds]
    constructor
    · intro hAccepts
      by_contra hOutside
      exact h ((memory.misjudges_iff offset size).mpr ⟨hAccepts, hOutside⟩)
    · exact Memory.accepts_of_contains
  · intro hContains
    rw [← Memory.between_of_contains hContains]
    exact stackLog_accepts (Memory.accepts_of_contains hContains) m hHolds

theorem not_logsExactly {offset size : Word} (h : memory.Misjudges offset size)
    (topics : List Word) : ¬LogsExactly memory topics offset size := by
  intro hExactly
  obtain ⟨hAccepts, hOutside⟩ := (memory.misjudges_iff offset size).mp h
  let items := topics.reverse ++ [size, offset]
  have hHolds : Machine.HoldsLogs items.length ([] ++ topics.reverse ++ [size, offset]) memory
      ⟨[], []⟩ [] { Stack.loaded items.length items with memory := memory }.machine :=
    ⟨holds_memory items memory, rfl⟩
  exact hOutside ((hExactly _ _ _ _ _ hHolds).1.mp ((stackLog_ok_iff hHolds).mpr hAccepts))

/-- LOG goes on exactly for the ranges inside the block, and prints them, unless its check misjudges
the operands; and one turn of LOG0 to LOG4 is stack_LOG. -/
theorem log_exact_iff (memory : Memory) (topics : List Word) (offset size : Word) :
    (LogsExactly memory topics offset size ↔ ¬memory.Misjudges offset size) ∧
      ∀ (code : Bytecode) (pc : Nat) (m : Machine), topics.length ≤ 4 →
        code.bytes[pc]? = some (BitVec.ofNat 8 (0xa0 + topics.length)) →
          cycle code pc m = andBreak (pc + 1) (stackLog topics.length) (m.fetched pc) := by
  refine ⟨⟨fun hExactly hMisjudges => not_logsExactly hMisjudges topics hExactly,
    fun h => logsExactly_of_not_misjudges h topics⟩, ?_⟩
  intro code pc m hTopics hFetch
  have hDecode : ∀ n ≤ 4, decode (BitVec.ofNat 8 (0xa0 + n)) = .log n := by decide
  rw [cycle_of_getElem? hFetch, hDecode _ hTopics]
  rfl

/-- PUSH0, NOT, PUSH0, LOG0: the size -1 is accepted, and no byte is printed. -/
theorem log_accepts_negative_size :
    let run := executeFor ⟨[0x5f, 0x19, 0x5f, 0xa0], fun _ => 0⟩ 4 0
      (stackCreate 4 (fun _ => 0) zeroMemory).machine
    outcome run = .ok (.inl 4) ∧ (final run).logs = [⟨0, [], []⟩] ∧
      ¬zeroMemory.val.Contains 0 (-1) ∧ ¬LogsExactly zeroMemory.val [] 0 (-1) := by
  refine ⟨by decide +kernel, by decide +kernel, ?_, not_logsExactly ?_ []⟩
  · rintro ⟨_, hPositive, _⟩
    revert hPositive
    decide
  · exact ⟨by decide, by decide, by decide⟩

/-- The last byte of the block with two topics. -/
example :
    let run := executeFor ⟨[0x60, 8, 0x60, 7, 0x60, 1, 0x60, 31, 0xa2], fun _ => 0⟩ 5 0
      (stackCreate 4 (fun _ => 0) zeroMemory).machine
    outcome run = .ok (.inl 9) ∧ (final run).logs = [⟨2, [0], [7, 8]⟩] := by
  decide +kernel

end Manhattan.Vm
