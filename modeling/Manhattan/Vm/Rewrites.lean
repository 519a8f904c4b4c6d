import Manhattan.Library.WordReadings
import Manhattan.Library.Yields
import Manhattan.Vm.CaseRules

/-! # What code does to the top of the stack

`Rewrites run before a after` says that `run` ends with `a` on every machine whose stack
ends in the items `before`, and puts `after` in their place; everything else that the
machine holds stays. `Replaces` is the same for a piece of bytecode that goes through its
instructions one by one.
-/

namespace Manhattan.Vm

open Library.ExecRules

def Rewrites {α : Type} (run : VM α) (before : List Word) (a : α) (after : List Word) : Prop :=
  ∀ (capacity : Nat) (xs : List Word) (memory : Memory) (storage : Storage),
    (xs ++ after).length ≤ capacity →
      Yields (Machine.Holds capacity (xs ++ before) memory storage) run a
        (Machine.Holds capacity (xs ++ after) memory storage)

/-- The program stands anywhere in the code, and the turns it takes are as many as it has
bytes: none of its instructions has immediates or jumps. -/
def Replaces (program : List Byte) (before after : List Word) : Prop :=
  ∀ (code : Bytecode) (front back : List Byte), code.bytes = front ++ (program ++ back) →
    Rewrites (executeFor code program.length front.length) before
      (.inl (front.length + program.length)) after

section Rules

variable {α β : Type} {run : VM α} {before middle after : List Word} {a : α}

/-- There is room for what stands between two steps when it is no longer than what comes
before or after. -/
theorem middle_room {capacity : Nat} {xs : List Word} (hBefore : (xs ++ before).length ≤ capacity)
    (hAfter : (xs ++ after).length ≤ capacity)
    (hMiddle : middle.length ≤ max before.length after.length) :
    (xs ++ middle).length ≤ capacity := by
  rw [List.length_append] at *
  omega

theorem rewrites_pure (items : List Word) (a : α) : Rewrites (pure a) items a items :=
  fun _ _ _ _ _ => yields_pure _ a

theorem Rewrites.bind {f : α → VM β} {b : β} (hRun : Rewrites run before a middle)
    (hf : Rewrites (f a) middle b after) (hMiddle : middle.length ≤ max before.length after.length) :
    Rewrites (run >>= f) before b after := by
  intro capacity xs memory storage hRoom m h
  have hMiddleRoom := middle_room h.length_le hRoom hMiddle
  exact ((hRun capacity xs memory storage hMiddleRoom).bind
    (hf capacity xs memory storage hRoom)) m h

theorem Rewrites.frame (ys : List Word) (h : Rewrites run before a after) :
    Rewrites run (ys ++ before) a (ys ++ after) := by
  intro capacity xs memory storage hRoom
  rw [← List.append_assoc] at hRoom
  simpa only [List.append_assoc] using h capacity (xs ++ ys) memory storage hRoom

/-- A stack of the given capacity that holds the items. -/
def Stack.loaded (capacity : Nat) (items : List Word) : Stack where
  size := capacity
  top := items.length - 1
  data := items ++ List.replicate (capacity - items.length) 0
  memory := zeroMemory.val
  storage := { table := [], cells := [] }

theorem Stack.loaded_holds {capacity : Nat} {items : List Word} (h : items.length ≤ capacity) :
    (Stack.loaded capacity items).machine.Holds capacity items zeroMemory.val
      { table := [], cells := [] } := by
  refine ⟨⟨rfl, ?_, ?_, ?_⟩, ?_, rfl, rfl⟩
  · simp [Stack.machine, Stack.loaded, h]
  · change -1 ≤ (items.length : Int) - 1
    omega
  · change (items.length : Int) - 1 ≤ (capacity : Int) - 1
    omega
  · change (items ++ _).take ((items.length : Int) - 1 + 1).toNat = items
    simp

theorem holds_memory (items : List Word) (memory : Memory) :
    Machine.Holds items.length items memory ⟨[], []⟩
      { Stack.loaded items.length items with memory := memory }.machine := by
  obtain ⟨⟨hSize, hCells, hLower, hUpper⟩, hItems, _, hStorage⟩ :=
    Stack.loaded_holds (Nat.le_refl items.length)
  exact ⟨⟨hSize, hCells, hLower, hUpper⟩, hItems, rfl, hStorage⟩

theorem Rewrites.unique {b : α} {after' : List Word} (h : Rewrites run before a after)
    (h' : Rewrites run before b after') : a = b ∧ after = after' := by
  let capacity := before.length + after.length + after'.length
  have hHolds := Stack.loaded_holds (show before.length ≤ capacity by omega)
  have hRun := h capacity [] zeroMemory.val ⟨[], []⟩ (show after.length ≤ capacity by omega)
  have hRun' := h' capacity [] zeroMemory.val ⟨[], []⟩ (show after'.length ≤ capacity by omega)
  obtain ⟨hValue, m, hm, hm'⟩ := hRun.unique hRun' hHolds hHolds
  exact ⟨hValue, hm.items.symm.trans hm'.items⟩

theorem Rewrites.iff_value (h : Rewrites run before a after) (b : α) :
    Rewrites run before b after ↔ b = a :=
  ⟨fun h' => (h'.unique h).1, fun hEq => hEq ▸ h⟩

end Rules

/-! ## The helpers -/

theorem rewrites_stackPop (v : Word) : Rewrites stackPop [v] v [] := by
  intro capacity xs memory storage _ m h
  obtain ⟨m', hPop, h'⟩ := stackPop_holds h
  exact ⟨m', hPop, by rwa [List.append_nil]⟩

theorem rewrites_stackPush (v : Word) : Rewrites (stackPush v) [] () [v] := by
  intro capacity xs memory storage hRoom m h
  rw [List.append_nil] at h
  exact stackPush_holds v h (by simpa using hRoom)

theorem rewrites_stackPop32 (v : Word) : Rewrites stackPop32 [v] (v.setWidth 32) [] :=
  (rewrites_stackPop v).bind (rewrites_pure [] _) (Nat.zero_le _)

theorem rewrites_require {depth : Int} {items : List Word} (h : depth < items.length)
    (operation : String) : Rewrites (require depth operation) items () items := by
  intro capacity xs memory storage _ m hHolds
  have hTop := hHolds.top
  rw [List.length_append] at hTop
  refine ⟨m, ?_, hHolds⟩
  refine (bind_of_ok rfl).trans ((exitIf_apply _ _ m).trans (if_neg ?_))
  omega

/-! ## The shapes of the cases -/

def low (v : Word) : Word := (v.setWidth 32).setWidth 64

theorem toInt_low (v : Word) : (low v).toInt = v.toInt % 2 ^ 32 :=
  Library.WordReadings.toInt_lowBits v (by decide)

theorem ofBool_eq_iff (c d : Bool) : ofBool c = ofBool d ↔ c = d := by
  cases c <;> cases d <;> decide

theorem rewrites_arithmeticCase {operation : Word → Word → VM Word} {a b r : Word}
    (h : ∀ m, operation a b m = .ok r m) : Rewrites (arithmeticCase operation) [a, b] () [r] :=
  fun _ _ _ _ _ _ hHolds => arithmeticCase_holds h hHolds

theorem rewrites_result {operation : VM Word} {r : Word} (h : ∀ m, operation m = .ok r m)
    (items : List Word) : Rewrites operation items r items :=
  fun _ _ _ _ _ m hHolds => ⟨m, h m, hHolds⟩

theorem rewrites_lowTopCase {name : String} {operation : Word → BitVec 32 → VM Word} {a b r : Word}
    (h : ∀ m, operation a (b.setWidth 32) m = .ok r m) :
    Rewrites (lowTopCase name operation) [a, b] () [r] := by
  refine (rewrites_require (by simp) name).bind ?_ (by simp)
  refine ((rewrites_stackPop32 b).frame [a]).bind ?_ (by simp)
  refine (rewrites_stackPop a).bind ?_ (by simp)
  exact (rewrites_result h []).bind (rewrites_stackPush r) (by simp)

theorem rewrites_lowSecondCase (name : String) (operation : Word → BitVec 32 → Word) (a b : Word) :
    Rewrites (lowSecondCase name operation) [a, b] () [operation b (a.setWidth 32)] := by
  refine (rewrites_require (by simp) name).bind ?_ (by simp)
  refine ((rewrites_stackPop b).frame [a]).bind ?_ (by simp)
  exact (rewrites_stackPop32 a).bind (rewrites_stackPush _) (by simp)

theorem rewrites_unaryCase (name : String) (operation : Word → Word) (a : Word) :
    Rewrites (unaryCase name operation) [a] () [operation a] := by
  refine (rewrites_require (by simp) name).bind ?_ (by simp)
  exact (rewrites_stackPop a).bind (rewrites_stackPush _) (by simp)

theorem Rewrites.andBreak {body : VM Unit} {before after : List Word}
    (h : Rewrites body before () after) (pc : Nat) :
    Rewrites (andBreak pc body) before (.inl pc) after :=
  h.bind (rewrites_pure after _) (Nat.le_max_right _ _)

theorem Rewrites.cycle {code : Bytecode} {pc : Nat} {opcode : Byte} {before after : List Word}
    {control : Control} (hFetch : code.bytes[pc]? = some opcode)
    (h : Rewrites (executeCase code (pc + 1) (decode opcode)) before control after) :
    Rewrites (cycle code pc) before control after := by
  intro capacity xs memory storage hRoom m hHolds
  rw [cycle_of_getElem? hFetch]
  exact h capacity xs memory storage hRoom _ (hHolds.fetched pc)

/-! ## Bytecode -/

section Programs

variable {p q : List Byte} {before middle after : List Word}

theorem Replaces.append (hp : Replaces p before middle) (hq : Replaces q middle after)
    (hMiddle : middle.length ≤ max before.length after.length) :
    Replaces (p ++ q) before after := by
  intro code front back hCode capacity xs memory storage hRoom m h
  have hMiddleRoom := middle_room h.length_le hRoom hMiddle
  have hFirst := hp code front (q ++ back) (by simpa using hCode) capacity xs memory storage
    hMiddleRoom
  have hSecond := hq code (front ++ p) back (by simpa using hCode) capacity xs memory storage
    hRoom
  rw [List.length_append] at hSecond
  rw [List.length_append, ← Nat.add_assoc]
  exact hFirst.turns_add hSecond m h

theorem Replaces.frame (ys : List Word) (h : Replaces p before after) :
    Replaces p (ys ++ before) (ys ++ after) :=
  fun code front back hCode => (h code front back hCode).frame ys

theorem Replaces.alone (h : Replaces p before after) :
    Rewrites (executeFor ⟨p, fun _ => 0⟩ p.length 0) before (.inl (0 + p.length)) after :=
  h ⟨p, fun _ => 0⟩ [] [] (by simp)

theorem Replaces.iff_eq {after' : List Word} (h : Replaces p before after) :
    Replaces p before after' ↔ after' = after :=
  ⟨fun h' => (h'.alone.unique h.alone).2, fun hEq => hEq ▸ h⟩

theorem replaces_opcode {opcode : Byte} {body : VM Unit}
    (hCase : ∀ code pc, executeCase code pc (decode opcode) = andBreak pc body)
    (h : Rewrites body before () after) : Replaces [opcode] before after := by
  intro code front back hCode capacity xs memory storage hRoom
  have hFetch : code.bytes[front.length]? = some opcode := by simp [hCode]
  have hBreak : Rewrites (executeCase code (front.length + 1) (decode opcode)) before
      (.inl (front.length + 1)) after := by
    rw [hCase]
    exact h.andBreak _
  exact yields_turns_one (hBreak.cycle hFetch capacity xs memory storage hRoom)

theorem not_replaces_of_stops {opcode : Byte} {body : VM Unit} {e : Halt}
    (hCase : ∀ code pc, executeCase code pc (decode opcode) = andBreak pc body)
    (h : ∀ (capacity : Nat) (memory : Memory) (storage : Storage) (m : Machine),
      m.Holds capacity before memory storage → ∃ m', body m = .error e m') :
    ¬Replaces [opcode] before after := by
  intro hReplaces
  let capacity := before.length + after.length
  have hHolds := Stack.loaded_holds (show before.length ≤ capacity by omega)
  have hRoom : (([] : List Word) ++ after).length ≤ capacity := by simp [capacity]
  obtain ⟨m', hStop⟩ := h _ _ _ _ (hHolds.fetched 0)
  have hTurn : cycle ⟨[opcode], fun _ => 0⟩ 0 (Stack.loaded capacity before).machine =
      .error e m' := by
    rw [cycle_of_getElem? (b := opcode) rfl, hCase]
    exact andBreak_of_error hStop _
  exact not_yields_of_error (turns_succ_of_error hTurn) hHolds
    (hReplaces.alone capacity [] zeroMemory.val ⟨[], []⟩ hRoom)

def Agree (p : List Byte) (before : List Word) (q : List Byte) (before' : List Word) : Prop :=
  ∃ after, Replaces p before after ∧ Replaces q before' after

theorem agree_iff {before' after' : List Word} (hp : Replaces p before after)
    (hq : Replaces q before' after') : Agree p before q before' ↔ after = after' := by
  constructor
  · rintro ⟨items, h, h'⟩
    exact (hp.iff_eq.mp h).symm.trans (hq.iff_eq.mp h')
  · rintro rfl
    exact ⟨after, hp, hq⟩

end Programs

theorem pushed_iff {program : List Byte} {before : List Word} {p q : Prop} [Decidable p] [Decidable q]
    (h : Replaces program before [ofBool p]) :
    Replaces program before [ofBool q] ↔ (p ↔ q) := by
  rw [h.iff_eq, List.singleton_inj, ofBool_eq_iff, decide_eq_decide]
  exact iff_comm

theorem pushes_one_iff {program : List Byte} {before : List Word} {p : Prop} [Decidable p]
    (h : Replaces program before [ofBool p]) : Replaces program before [1] ↔ p :=
  (pushed_iff (q := True) h).trans (iff_of_eq (iff_true p))

end Manhattan.Vm
