import Manhattan.Library.Triples
import Manhattan.Vm.Branching
import Manhattan.Vm.DupSwap
import Manhattan.Vm.Exponent
import Manhattan.Vm.Postfix

/-! # Counted loops in bytecode

The loop that runs a piece of bytecode, takes one from the counter on top of the stack and jumps
back while JUMPI takes what is left for true. JUMPI looks at 32 bits of the counter and SUB
subtracts in 64, so the loop makes as many rounds as the low half says, and 2^32 for a low half of 0.
-/

namespace Manhattan.Vm

open Library.ExecRules

variable {code : Bytecode} {capacity pc pc' : Nat} {xs before after : List Word} {memory : Memory}
  {storage : Storage}

/-- The bytes of the program stand in the code from `pc` on. -/
def Bytecode.Has (code : Bytecode) (pc : Nat) (program : List Byte) : Prop :=
  program <+: code.bytes.drop pc

theorem Bytecode.Has.getElem? {program : List Byte} {i : Nat} {b : Byte} (h : code.Has pc program)
    (hi : program[i]? = some b) : code.bytes[pc + i]? = some b := by
  obtain ⟨rest, hRest⟩ := h
  have hBound : i < program.length := (List.getElem?_eq_some_iff.mp hi).1
  rw [← List.getElem?_drop, ← hRest, List.getElem?_append_left hBound, hi]

theorem Bytecode.Has.behind {front program : List Byte} (h : code.Has pc (front ++ program)) :
    code.Has (pc + front.length) program := by
  obtain ⟨rest, hRest⟩ := h
  refine ⟨rest, ?_⟩
  rw [← List.drop_drop, ← hRest, List.append_assoc, List.drop_left]

theorem Bytecode.Has.front {front program : List Byte} (h : code.Has pc (front ++ program)) :
    code.Has pc front := (List.prefix_append front program).trans h

/-! ## Single instructions -/

theorem reaches_of_rewrites (h : Rewrites (cycle code pc) before (.inl pc') after)
    (hRoom : (xs ++ after).length ≤ capacity) :
    Reaches (cycle code) pc (Machine.Holds capacity (xs ++ before) memory storage) pc'
      (Machine.Holds capacity (xs ++ after) memory storage) :=
  reaches_turn (h capacity xs memory storage hRoom)

theorem reaches_opcode {opcode : Byte} {body : VM Unit} (hFetch : code.bytes[pc]? = some opcode)
    (hCase : ∀ code pc, executeCase code pc (decode opcode) = andBreak pc body)
    (h : Rewrites body before () after) (hRoom : (xs ++ after).length ≤ capacity) :
    Reaches (cycle code) pc (Machine.Holds capacity (xs ++ before) memory storage) (pc + 1)
      (Machine.Holds capacity (xs ++ after) memory storage) := by
  refine reaches_of_rewrites (Rewrites.cycle hFetch ?_) hRoom
  rw [hCase]
  exact h.andBreak _

theorem reaches_jumpdest (hFetch : code.bytes[pc]? = some 0x5b) (hRoom : xs.length ≤ capacity) :
    Reaches (cycle code) pc (Machine.Holds capacity xs memory storage) (pc + 1)
      (Machine.Holds capacity xs memory storage) := by
  have hCase : Rewrites (executeCase code (pc + 1) (decode 0x5b)) [] (.inl (pc + 1)) [] :=
    rewrites_pure [] _
  have hItems : xs ++ [] = xs := List.append_nil xs
  rw [← hItems] at hRoom ⊢
  exact reaches_of_rewrites (hCase.cycle hFetch) hRoom

theorem reaches_push1 {c : Byte} (hFetch : code.bytes[pc]? = some 0x60)
    (hImmediate : code.bytes[pc + 1]? = some c) (hRoom : xs.length < capacity) :
    Reaches (cycle code) pc (Machine.Holds capacity xs memory storage) (pc + 2)
      (Machine.Holds capacity (xs ++ [c.setWidth 64]) memory storage) :=
  reaches_turn fun _ h => cycle_push1 hFetch hImmediate h hRoom

theorem rewrites_sub (a b : Word) : Rewrites caseSUB [a, b] () [a - b] :=
  rewrites_arithmeticCase fun _ => rfl

theorem rewrites_mul (a b : Word) : Rewrites caseMUL [a, b] () [a * b] :=
  rewrites_arithmeticCase fun _ => rfl

theorem rewrites_stackDup {n : Nat} {items : List Word} (hItems : items.length = n) :
    Rewrites (stackDup n) items () (items ++ items) := by
  subst hItems
  intro capacity xs memory storage hRoom m h
  rw [← List.append_assoc] at hRoom ⊢
  exact stackDup_holds h (by rwa [List.length_append] at hRoom)

theorem rewrites_stackSwap {n : Nat} {items : List Word} (hItems : items.length = n + 1) :
    Rewrites (stackSwap n) items () items.reverse :=
  fun _ _ _ _ _ _ h => stackSwap_holds hItems h

theorem rewrites_casePOP (v : Word) : Rewrites casePOP [v] () [] := by
  intro capacity xs memory storage hRoom m h
  have hTop := h.top
  rw [List.length_append, List.length_singleton] at hTop
  obtain ⟨m', hPop, h'⟩ := stackPop_holds h
  obtain ⟨m'', hPop', hStack⟩ := stackPop_fromTop (m := m) (by omega)
  cases hPop.symm.trans hPop'
  refine ⟨_, (casePOP_apply m).trans (if_neg (by omega)), ?_⟩
  rw [List.append_nil, ← hStack]
  exact h'.trace m.trace

theorem reaches_jumpi {d c : Word} (hFetch : code.bytes[pc]? = some 0x57)
    (hValid : ValidDestination code d) (hRoom : xs.length ≤ capacity) :
    Reaches (cycle code) pc (Machine.Holds capacity (xs ++ [d, c]) memory storage)
      (if c.setWidth 32 ≠ (0 : BitVec 32) then d.toNat else pc + 1)
      (Machine.Holds capacity xs memory storage) := by
  have hJump := rewrites_cycle_jumpi hFetch hValid c
  have h : Reaches (cycle code) pc (Machine.Holds capacity (xs ++ [d, c]) memory storage) _
      (Machine.Holds capacity (xs ++ []) memory storage) :=
    reaches_of_rewrites hJump (by rwa [List.append_nil])
  rwa [List.append_nil] at h

/-! ## The loop -/

/-- PUSH1 1, SUB, DUP1, PUSH1 d, SWAP1, JUMPI -/
def again (d : Byte) : List Byte := [0x60, 1, 0x03, 0x80, 0x60, d, 0x90, 0x57]

/-- `do body while (--counter)` from the offset d on -/
def countedLoop (body : List Byte) (d : Byte) : List Byte := 0x5b :: (body ++ again d)

/-- How many rounds a loop makes whose counter starts with `c`. -/
def rounds (c : Word) : Nat := if c.toNat % 2 ^ 32 = 0 then 2 ^ 32 else c.toNat % 2 ^ 32

theorem rounds_pos (c : Word) : 0 < rounds c := by
  rw [rounds]
  split <;> omega

theorem low_zero_iff {c : Word} {k : Nat} (hPos : 0 < k) (hk : k ≤ rounds c) :
    (c - BitVec.ofNat 64 k).setWidth 32 = (0 : BitVec 32) ↔ k = rounds c := by
  rw [← BitVec.toNat_inj, BitVec.toNat_setWidth, BitVec.toNat_sub, BitVec.toNat_ofNat]
  change _ = 0 ↔ _
  rw [rounds] at hk ⊢
  split at hk
  · rename_i hLow
    rw [if_pos hLow]
    omega
  · rename_i hLow
    rw [if_neg hLow]
    omega

theorem toNat_setWidth_byte (d : Byte) : (d.setWidth 64 : Word).toNat = d.toNat := by
  have hd := d.isLt
  rw [BitVec.toNat_setWidth]
  omega

theorem again_reaches {d : Byte} {c : Word} (hCode : code.Has pc (again d))
    (hValid : ValidDestination code (d.setWidth 64)) (hRoom : xs.length + 3 ≤ capacity) :
    Reaches (cycle code) pc (Machine.Holds capacity (xs ++ [c]) memory storage)
      (if (c - 1).setWidth 32 ≠ (0 : BitVec 32) then d.toNat else pc + 8)
      (Machine.Holds capacity (xs ++ [c - 1]) memory storage) := by
  have hLength (items : List Word) : (xs ++ items).length = xs.length + items.length :=
    List.length_append
  have hPush : Reaches (cycle code) pc (Machine.Holds capacity (xs ++ [c]) memory storage) (pc + 2)
      (Machine.Holds capacity (xs ++ [c] ++ [1]) memory storage) :=
    reaches_push1 (hCode.getElem? (i := 0) rfl) (hCode.getElem? (i := 1) rfl)
      (by simp [hLength]; omega)
  have hSub : Reaches (cycle code) (pc + 2) (Machine.Holds capacity (xs ++ [c, 1]) memory storage)
      (pc + 3) (Machine.Holds capacity (xs ++ [c - 1]) memory storage) :=
    reaches_opcode (hCode.getElem? rfl) (fun _ _ => rfl) (rewrites_sub c 1) (by simp [hLength]; omega)
  have hDup : Reaches (cycle code) (pc + 3) (Machine.Holds capacity (xs ++ [c - 1]) memory storage)
      (pc + 4) (Machine.Holds capacity (xs ++ [c - 1, c - 1]) memory storage) :=
    reaches_opcode (hCode.getElem? rfl) (fun _ _ => rfl) (rewrites_stackDup (n := 1) rfl)
      (by simp; omega)
  have hPushTo : Reaches (cycle code) (pc + 4)
      (Machine.Holds capacity (xs ++ [c - 1, c - 1]) memory storage) (pc + 6)
      (Machine.Holds capacity (xs ++ [c - 1, c - 1] ++ [d.setWidth 64]) memory storage) :=
    reaches_push1 (hCode.getElem? rfl) (hCode.getElem? (i := 5) rfl) (by simp; omega)
  have hSwap : Reaches (cycle code) (pc + 6)
      (Machine.Holds capacity (xs ++ [c - 1] ++ [c - 1, d.setWidth 64]) memory storage) (pc + 7)
      (Machine.Holds capacity (xs ++ [c - 1] ++ [d.setWidth 64, c - 1]) memory storage) :=
    reaches_opcode (hCode.getElem? rfl) (fun _ _ => rfl)
      (rewrites_stackSwap rfl) (by simp; omega)
  have hJump : Reaches (cycle code) (pc + 7)
      (Machine.Holds capacity (xs ++ [c - 1] ++ [d.setWidth 64, c - 1]) memory storage) _
      (Machine.Holds capacity (xs ++ [c - 1]) memory storage) :=
    reaches_jumpi (hCode.getElem? rfl) hValid (by simp; omega)
  rw [toNat_setWidth_byte] at hJump
  simp only [List.append_assoc, List.cons_append, List.nil_append] at hPush hPushTo hSwap hJump
  exact ((((hPush.trans hSub).trans hDup).trans hPushTo).trans hSwap).trans hJump

theorem validDestination_byte {d : Byte} (hSize : code.size < 2 ^ 64)
    (hByte : code.bytes[d.toNat]? = some 0x5b) : ValidDestination code (d.setWidth 64) := by
  have hd := d.isLt
  have hNat := toNat_setWidth_byte d
  have hLt := Bytecode.lt_size_of_getElem? hByte
  constructor
  · rintro (hNegative | hBeyond)
    · rw [BitVec.toInt_eq_toNat_of_lt (by omega)] at hNegative
      omega
    · omega
  · rw [hNat]
    exact Bytecode.read_of_getElem? hByte

section Countdown

variable (items : Nat → List Word) (memory : Nat → Memory) (storage : Nat → Storage) (c : Word)

/-- The machine after k rounds of the body, when `taken` has been taken from the counter. -/
def Round (capacity k taken : Nat) : Machine → Prop :=
  Machine.Holds capacity (items k ++ [c - BitVec.ofNat 64 taken]) (memory k) (storage k)

theorem round_reaches {d : Byte} {body : List Byte} {k : Nat}
    (hCode : code.Has d.toNat (countedLoop body d)) (hValid : ValidDestination code (d.setWidth 64))
    (hRoom : ∀ k ≤ rounds c, (items k).length + 3 ≤ capacity) (hk : k < rounds c)
    (hBody : Reaches (cycle code) (d.toNat + 1) (Round items memory storage c capacity k k)
      (d.toNat + 1 + body.length) (Round items memory storage c capacity (k + 1) k)) :
    Reaches (cycle code) d.toNat (Round items memory storage c capacity k k)
      (if k + 1 = rounds c then d.toNat + 1 + body.length + 8 else d.toNat)
      (Round items memory storage c capacity (k + 1) (k + 1)) := by
  have hList : code.Has d.toNat ([0x5b] ++ (body ++ again d)) := hCode
  have hHead : Reaches (cycle code) d.toNat (Round items memory storage c capacity k k) (d.toNat + 1)
      (Round items memory storage c capacity k k) := by
    refine reaches_jumpdest (hCode.getElem? (i := 0) rfl) ?_
    have hItems := hRoom k hk.le
    rw [List.length_append, List.length_singleton]
    omega
  have hTail : Reaches (cycle code) (d.toNat + 1 + body.length)
      (Round items memory storage c capacity (k + 1) k) _
      (Machine.Holds capacity (items (k + 1) ++ [c - BitVec.ofNat 64 k - 1]) (memory (k + 1))
        (storage (k + 1))) :=
    again_reaches hList.behind.behind hValid (hRoom (k + 1) hk)
  have hCounter : c - BitVec.ofNat 64 k - 1 = c - BitVec.ofNat 64 (k + 1) := by
    rw [BitVec.sub_sub, BitVec.ofNat_add]
    rfl
  rw [hCounter] at hTail
  simp only [low_zero_iff (Nat.succ_pos k) hk, ne_eq, ite_not] at hTail
  exact (hHead.trans hBody).trans hTail

theorem loop_reaches (code : Bytecode) (hSize : code.size < 2 ^ 64) (body : List Byte) (d : Byte)
    (hCode : code.Has d.toNat (countedLoop body d)) (capacity : Nat)
    (hRoom : ∀ k ≤ rounds c, (items k).length + 3 ≤ capacity)
    (hBody : ∀ k < rounds c, Reaches (cycle code) (d.toNat + 1)
      (Round items memory storage c capacity k k) (d.toNat + 1 + body.length)
      (Round items memory storage c capacity (k + 1) k)) :
    Reaches (cycle code) d.toNat (Round items memory storage c capacity 0 0)
      (d.toNat + (countedLoop body d).length)
      (Round items memory storage c capacity (rounds c) (rounds c)) := by
  have hByte : code.bytes[d.toNat]? = some 0x5b := hCode.getElem? (i := 0) rfl
  have hValid := validDestination_byte hSize hByte
  have hExit : d.toNat + (countedLoop body d).length = d.toNat + 1 + body.length + 8 := by
    simp only [countedLoop, again, List.length_cons, List.length_append, List.length_nil]
    omega
  rw [hExit]
  have hRounds : ∀ left, Leads (cycle code) d.toNat
      (fun m => ∃ k, k + left = rounds c ∧ 0 < left ∧ Round items memory storage c capacity k k m)
      fun control m => control = .inl (d.toNat + 1 + body.length + 8) ∧
        Round items memory storage c capacity (rounds c) (rounds c) m := by
    refine leads_of_rounds Nat.lt_wfRel.wf fun left m => ?_
    rintro ⟨k, hSum, hLeft, hm⟩
    have hk : k < rounds c := by omega
    obtain ⟨n, control, m', hRun, rfl, hm'⟩ :=
      round_reaches items memory storage c hCode hValid hRoom hk (hBody k hk) m hm
    refine ⟨n, _, m', hRun, ?_⟩
    by_cases hLast : k + 1 = rounds c
    · rw [if_pos hLast]
      exact .inr ⟨rfl, hLast ▸ hm'⟩
    · rw [if_neg hLast]
      exact .inl ⟨rfl, left - 1, Nat.sub_lt hLeft Nat.one_pos, k + 1, by omega, by omega, hm'⟩
  exact fun m hm => hRounds (rounds c) m ⟨0, Nat.zero_add _, rounds_pos c, hm⟩

/-- If the body takes the items, the memory and the storage of each round to those of the next one
and leaves the counter alone, the loop ends behind its last byte after as many rounds as the low
half of the counter says, 2^32 for 0, and the low half is then 0. -/
theorem countdown_runs (code : Bytecode) (hSize : code.size < 2 ^ 64) (body : List Byte) (d : Byte)
    (hCode : code.Has d.toNat (countedLoop body d)) (capacity : Nat)
    (hRoom : ∀ k ≤ rounds c, (items k).length + 3 ≤ capacity)
    (hBody : ∀ k < rounds c, ∀ m, Round items memory storage c capacity k k m →
      ∃ n m', executeFor code n (d.toNat + 1) m = .ok (.inl (d.toNat + 1 + body.length)) m' ∧
        Round items memory storage c capacity (k + 1) k m')
    (m : Machine) (hStart : m.Holds capacity (items 0 ++ [c]) (memory 0) (storage 0)) :
    ∃ n m', executeFor code n d.toNat m = .ok (.inl (d.toNat + (countedLoop body d).length)) m' ∧
      m'.Holds capacity (items (rounds c) ++ [c - BitVec.ofNat 64 (rounds c)]) (memory (rounds c))
        (storage (rounds c)) ∧
      (c - BitVec.ofNat 64 (rounds c)).setWidth 32 = (0 : BitVec 32) := by
  have hBodies : ∀ k < rounds c, Reaches (cycle code) (d.toNat + 1)
      (Round items memory storage c capacity k k) (d.toNat + 1 + body.length)
      (Round items memory storage c capacity (k + 1) k) := by
    intro k hk m hm
    obtain ⟨n, m', hRun, hm'⟩ := hBody k hk m hm
    exact ⟨n, _, m', hRun, rfl, hm'⟩
  have hFirst : Round items memory storage c capacity 0 0 m := by
    rwa [Round, BitVec.sub_zero]
  obtain ⟨n, control, m', hRun, rfl, hm'⟩ :=
    loop_reaches items memory storage c code hSize body d hCode capacity hRoom hBodies m hFirst
  exact ⟨n, m', hRun, hm', (low_zero_iff (rounds_pos c) (Nat.le_refl _)).mpr rfl⟩

end Countdown

/-! ## Powers -/

/-- SWAP2, DUP2, MUL, SWAP1, POP, SWAP2: the product of the two items under the counter takes the
place of the first. -/
def multiply : List Byte := [0x91, 0x81, 0x02, 0x90, 0x50, 0x91]

/-- From [a, e] to the power: the items are first [1, a, e]. -/
def power : List Byte := [0x60, 1, 0x91, 0x90] ++ countedLoop multiply 4 ++ [0x50, 0x50]

theorem multiply_reaches {p x c : Word} (hCode : code.Has pc multiply)
    (hRoom : xs.length + 5 ≤ capacity) :
    Reaches (cycle code) pc (Machine.Holds capacity (xs ++ [p, x, c]) memory storage) (pc + 6)
      (Machine.Holds capacity (xs ++ [x * p, x, c]) memory storage) := by
  have hSwap : Reaches (cycle code) pc (Machine.Holds capacity (xs ++ [p, x, c]) memory storage)
      (pc + 1) (Machine.Holds capacity (xs ++ [c, x, p]) memory storage) :=
    reaches_opcode (hCode.getElem? (i := 0) rfl) (fun _ _ => rfl)
      (rewrites_stackSwap (n := 2) rfl) (by simp; omega)
  have hDup : Reaches (cycle code) (pc + 1)
      (Machine.Holds capacity (xs ++ [c] ++ [x, p]) memory storage) (pc + 2)
      (Machine.Holds capacity (xs ++ [c] ++ [x, p, x, p]) memory storage) :=
    reaches_opcode (hCode.getElem? rfl) (fun _ _ => rfl) (rewrites_stackDup (n := 2) rfl)
      (by simp; omega)
  have hMul : Reaches (cycle code) (pc + 2)
      (Machine.Holds capacity (xs ++ [c, x, p] ++ [x, p]) memory storage) (pc + 3)
      (Machine.Holds capacity (xs ++ [c, x, p] ++ [x * p]) memory storage) :=
    reaches_opcode (hCode.getElem? rfl) (fun _ _ => rfl) (rewrites_mul x p) (by simp; omega)
  have hUnder : Reaches (cycle code) (pc + 3)
      (Machine.Holds capacity (xs ++ [c, x] ++ [p, x * p]) memory storage) (pc + 4)
      (Machine.Holds capacity (xs ++ [c, x] ++ [x * p, p]) memory storage) :=
    reaches_opcode (hCode.getElem? rfl) (fun _ _ => rfl) (rewrites_stackSwap rfl) (by simp; omega)
  have hPop : Reaches (cycle code) (pc + 4)
      (Machine.Holds capacity (xs ++ [c, x, x * p] ++ [p]) memory storage) (pc + 5)
      (Machine.Holds capacity (xs ++ [c, x, x * p] ++ []) memory storage) :=
    reaches_opcode (hCode.getElem? rfl) (fun _ _ => rfl) (rewrites_casePOP p) (by simp; omega)
  have hBack : Reaches (cycle code) (pc + 5)
      (Machine.Holds capacity (xs ++ [c, x, x * p]) memory storage) (pc + 6)
      (Machine.Holds capacity (xs ++ [x * p, x, c]) memory storage) :=
    reaches_opcode (hCode.getElem? rfl) (fun _ _ => rfl) (rewrites_stackSwap (n := 2) rfl)
      (by simp; omega)
  simp only [List.append_assoc, List.cons_append, List.nil_append, List.append_nil]
    at hDup hMul hUnder hPop
  exact ((((hSwap.trans hDup).trans hMul).trans hUnder).trans hPop).trans hBack

/-- The items under the counter of `power` after k rounds -/
def powers (xs : List Word) (a : Word) (k : Nat) : List Word := xs ++ [a ^ k, a]

theorem multiply_round (beyond : Nat → Byte) (a e : Word) (hRoom : xs.length + 5 ≤ capacity)
    (k : Nat) : Reaches (cycle ⟨power, beyond⟩) 5
      (Round (powers xs a) (fun _ => memory) (fun _ => storage) e capacity k k) 11
      (Round (powers xs a) (fun _ => memory) (fun _ => storage) e capacity (k + 1) k) := by
  have hMultiply : Bytecode.Has ⟨power, beyond⟩ 5 multiply := ⟨again 4 ++ [0x50, 0x50], rfl⟩
  have hRun : Reaches (cycle ⟨power, beyond⟩) 5
      (Machine.Holds capacity (xs ++ [a ^ k, a, e - BitVec.ofNat 64 k]) memory storage) 11
      (Machine.Holds capacity (xs ++ [a * a ^ k, a, e - BitVec.ofNat 64 k]) memory storage) :=
    multiply_reaches hMultiply hRoom
  simpa only [Round, powers, pow_succ', List.append_assoc, List.cons_append, List.nil_append]
    using hRun

theorem has_countedLoop (beyond : Nat → Byte) :
    Bytecode.Has ⟨power, beyond⟩ (4 : Byte).toNat (countedLoop multiply 4) := ⟨[0x50, 0x50], rfl⟩

theorem powers_room (a : Word) (hRoom : xs.length + 5 ≤ capacity) (k : Nat) :
    (powers xs a k).length + 3 ≤ capacity := by
  simp only [powers, List.length_append, List.length_cons, List.length_nil]
  omega

/-- The counter 2^32 + 3 makes three rounds. -/
theorem countdown_runs_power :
    ∃ n m', executeFor ⟨power, fun _ => 0⟩ n (4 : Byte).toNat
        (Stack.loaded 5 [1, 2, 2 ^ 32 + 3]).machine =
          .ok (.inl ((4 : Byte).toNat + (countedLoop multiply 4).length)) m' ∧
      m'.Holds 5 (powers [] 2 (rounds (2 ^ 32 + 3)) ++
        [2 ^ 32 + 3 - BitVec.ofNat 64 (rounds (2 ^ 32 + 3))]) zeroMemory.val ⟨[], []⟩ ∧
      (2 ^ 32 + 3 - BitVec.ofNat 64 (rounds (2 ^ 32 + 3))).setWidth 32 = (0 : BitVec 32) := by
  refine countdown_runs (powers [] 2) (fun _ => zeroMemory.val) (fun _ => ⟨[], []⟩) (2 ^ 32 + 3)
    ⟨power, fun _ => 0⟩ (show (21 : Nat) < 2 ^ 64 by decide) multiply 4 (has_countedLoop _) 5
    (fun k _ => powers_room 2 (by decide) k) (fun k _ m hm => ?_) _ (Stack.loaded_holds (by decide))
  obtain ⟨n, control, m', hRun, rfl, hm'⟩ := multiply_round _ 2 (2 ^ 32 + 3) (by decide) k m hm
  exact ⟨n, m', hRun, hm'⟩

theorem power_reaches (beyond : Nat → Byte) (a e : Word) (hRoom : xs.length + 5 ≤ capacity) :
    Reaches (cycle ⟨power, beyond⟩) 0 (Machine.Holds capacity (xs ++ [a, e]) memory storage)
      power.length (Machine.Holds capacity (xs ++ [a ^ rounds e]) memory storage) := by
  have hProgram : Bytecode.Has ⟨power, beyond⟩ 0 power := List.prefix_rfl
  have hRun := loop_reaches (powers xs a) (fun _ => memory) (fun _ => storage) e
    ⟨power, beyond⟩ (show (21 : Nat) < 2 ^ 64 by decide) multiply 4 (has_countedLoop _) capacity
    (fun k _ => powers_room a hRoom k) fun k _ => multiply_round beyond a e hRoom k
  have hPush : Reaches (cycle ⟨power, beyond⟩) 0
      (Machine.Holds capacity (xs ++ [a, e]) memory storage) 2
      (Machine.Holds capacity (xs ++ [a, e] ++ [1]) memory storage) :=
    reaches_push1 (hProgram.getElem? (i := 0) rfl) (hProgram.getElem? (i := 1) rfl) (by simp; omega)
  have hReverse : Reaches (cycle ⟨power, beyond⟩) 2
      (Machine.Holds capacity (xs ++ [a, e, 1]) memory storage) 3
      (Machine.Holds capacity (xs ++ [1, e, a]) memory storage) :=
    reaches_opcode (hProgram.getElem? (i := 2) rfl) (fun _ _ => rfl)
      (rewrites_stackSwap (n := 2) rfl) (by simp; omega)
  have hSwap : Reaches (cycle ⟨power, beyond⟩) 3
      (Machine.Holds capacity (xs ++ [1] ++ [e, a]) memory storage) 4
      (Machine.Holds capacity (xs ++ [1] ++ [a, e]) memory storage) :=
    reaches_opcode (hProgram.getElem? (i := 3) rfl) (fun _ _ => rfl)
      (rewrites_stackSwap (n := 1) rfl) (by simp; omega)
  have hCounter : Reaches (cycle ⟨power, beyond⟩) 19
      (Machine.Holds capacity (xs ++ [a ^ rounds e, a] ++ [e - BitVec.ofNat 64 (rounds e)]) memory
        storage) 20
      (Machine.Holds capacity (xs ++ [a ^ rounds e, a] ++ []) memory storage) :=
    reaches_opcode (hProgram.getElem? (i := 19) rfl) (fun _ _ => rfl) (rewrites_casePOP _)
      (by simp; omega)
  have hBase : Reaches (cycle ⟨power, beyond⟩) 20
      (Machine.Holds capacity (xs ++ [a ^ rounds e] ++ [a]) memory storage) 21
      (Machine.Holds capacity (xs ++ [a ^ rounds e] ++ []) memory storage) :=
    reaches_opcode (hProgram.getElem? (i := 20) rfl) (fun _ _ => rfl) (rewrites_casePOP _)
      (by simp; omega)
  simp only [List.append_assoc, List.cons_append, List.nil_append, List.append_nil]
    at hPush hSwap hCounter hBase
  have hStart : Round (powers xs a) (fun _ => memory) (fun _ => storage) e capacity 0 0 =
      Machine.Holds capacity (xs ++ [1, a, e]) memory storage := by
    simp [Round, powers]
  have hEnd : Round (powers xs a) (fun _ => memory) (fun _ => storage) e capacity (rounds e)
      (rounds e) = Machine.Holds capacity
        (xs ++ [a ^ rounds e, a, e - BitVec.ofNat 64 (rounds e)]) memory storage := by
    simp [Round, powers]
  rw [hStart, hEnd] at hRun
  exact ((((hPush.trans hReverse).trans hSwap).trans hRun).trans hCounter).trans hBase

theorem rounds_of_lt {e : Word} (h : 0 < e.toNat ∧ e.toNat < 2 ^ 32) : rounds e = e.toNat := by
  have hLow : e.toNat % 2 ^ 32 = e.toNat := Nat.mod_eq_of_lt h.2
  rw [rounds, hLow, if_neg (Nat.pos_iff_ne_zero.mp h.1)]

/-- Where EXP pushes anything it is what the loop of multiplications leaves. -/
theorem exp_agrees_power (beyond beyond' : Nat → Byte) (a e : Word)
    (hExponent : 0 < e.toNat ∧ e.toNat < 2 ^ 32) (hRoom : xs.length + 5 ≤ capacity) {m : Machine}
    (h : m.Holds capacity (xs ++ [a, e]) memory storage) :
    (∃ n m', executeFor ⟨power, beyond⟩ n 0 m = .ok (.inl power.length) m' ∧
        m'.Holds capacity (xs ++ [a ^ e.toNat]) memory storage) ∧
      ∀ v pc m', cycle ⟨[0x0a], beyond'⟩ 0 m = .ok (.inl pc) m' →
        (m'.Holds capacity (xs ++ [v]) memory storage ↔ v = a ^ e.toNat) := by
  constructor
  · obtain ⟨n, control, m', hRun, rfl, hm'⟩ := power_reaches beyond a e hRoom m h
    rw [rounds_of_lt hExponent] at hm'
    exact ⟨n, m', hRun, hm'⟩
  · intro v pc m' hTurn
    have hSign : 0 ≤ e.toInt := by
      rw [BitVec.toInt_eq_toNat_of_lt (by omega)]
      exact Int.natCast_nonneg _
    have hFetch : (⟨[0x0a], beyond'⟩ : Bytecode).bytes[0]? = some 0x0a := rfl
    by_cases hGuessed : Guessed a.toInt e.toNat
    · obtain ⟨m'', hStop⟩ := cycle_exp_reports hFetch hSign h hGuessed
      cases hStop.symm.trans hTurn
    · obtain ⟨m'', hPush, hm''⟩ := cycle_exp_pushes hFetch hSign h hGuessed
      cases hPush.symm.trans hTurn
      refine ⟨fun hv => ?_, fun hv => hv ▸ hm''⟩
      have hItems := hv.items.symm.trans hm''.items
      exact List.singleton_inj.mp (List.append_cancel_left hItems)

theorem exp_agrees_power_cube :
    let m := (Stack.loaded 5 [3, 5]).machine
    (∃ n m', executeFor ⟨power, fun _ => 0⟩ n 0 m = .ok (.inl power.length) m' ∧
        m'.Holds 5 ([] ++ [3 ^ 5]) zeroMemory.val ⟨[], []⟩) ∧
      ∀ v pc m', cycle ⟨[0x0a], fun _ => 0⟩ 0 m = .ok (.inl pc) m' →
        (m'.Holds 5 ([] ++ [v]) zeroMemory.val ⟨[], []⟩ ↔ v = 3 ^ 5) :=
  exp_agrees_power _ _ 3 5 (by decide) (by decide) (Stack.loaded_holds (by decide))

end Manhattan.Vm
