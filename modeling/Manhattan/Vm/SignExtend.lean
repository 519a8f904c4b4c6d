import Manhattan.Vm.Rewrites

/-! # SIGNEXTEND

The case never extends a sign. It looks at bit 31 of the index; where that is clear it pushes
the value as it is, and where it is set it keeps some of the low bits. Its check of the depth
asks for three items, of which it pops two.
-/

namespace Manhattan.Vm

open Library.ExecRules Library.WordReadings

/-- y is what the bytes 0 to b of x stand for in two's complement, or x itself when x has no
byte behind b. -/
def SignExtension (b : Nat) (x y : Int) : Prop :=
  if b < 8 then (-2 ^ (8 * b + 7) ≤ y ∧ y < 2 ^ (8 * b + 7)) ∧ (2 : Int) ^ (8 * (b + 1)) ∣ y - x
  else y = x

/-- The opcode takes every machine with the one stack to the other. -/
def TurnsInto (opcode : Byte) (items items' : List Word) : Prop :=
  ∀ (code : Bytecode) (pc capacity : Nat) (memory : Memory) (storage : Storage),
    code.bytes[pc]? = some opcode →
      Yields (Machine.Holds capacity items memory storage) (cycle code pc) (.inl (pc + 1))
        (Machine.Holds capacity items' memory storage)

/-- On the items xs, the value x and the index b on top, SIGNEXTEND leaves xs with the
extension of x, and again the same when the index is put back. -/
def ExtendsSign (xs : List Word) (x b : Word) : Prop :=
  ∃ y : Word, SignExtension b.toNat x.toInt y.toInt ∧
    TurnsInto 0x0b (xs ++ [x, b]) (xs ++ [y]) ∧ TurnsInto 0x0b (xs ++ [y, b]) (xs ++ [y])

theorem signExtension_unique {b : Nat} {x y z : Int} (hy : SignExtension b x y)
    (hz : SignExtension b x z) : y = z := by
  unfold SignExtension at hy hz
  split at hy
  · rename_i hIndex
    rw [if_pos hIndex] at hz
    obtain ⟨⟨hyLower, hyUpper⟩, hyDvd⟩ := hy
    obtain ⟨⟨hzLower, hzUpper⟩, hzDvd⟩ := hz
    have hPower : (2 : Int) ^ (8 * (b + 1)) = 2 * 2 ^ (8 * b + 7) := by
      rw [show 8 * (b + 1) = 8 * b + 7 + 1 by omega, pow_succ, Int.mul_comm]
    have hDvd : (2 : Int) ^ (8 * (b + 1)) ∣ y - z := by
      have hSub := Int.dvd_sub hyDvd hzDvd
      rwa [sub_sub_sub_cancel_right] at hSub
    rw [hPower] at hDvd
    have hZero := Int.eq_zero_of_abs_lt_dvd hDvd (by rw [abs_lt]; omega)
    omega
  · rename_i hIndex
    rw [if_neg hIndex] at hz
    exact hy.trans hz.symm

/-! ## What is pushed -/

def signextend (x : Word) (b : BitVec 32) : Word :=
  if b &&& 0x80000000 ≠ 0 then
    x &&& (~~~((~~~0 : BitVec 32) <<< (b &&& 0x1f).toNat)).setWidth 64
  else x &&& 0xffffffffffffffff

theorem and_topBit (b : BitVec 32) : b &&& 0x80000000 ≠ 0 ↔ b.toNat.testBit 31 := by
  have hTop : (0x80000000 : BitVec 32) = BitVec.twoPow 32 31 := by decide
  rw [hTop, BitVec.and_twoPow, BitVec.testBit_toNat]
  split
  · rename_i hBit
    exact iff_of_true (by decide) hBit
  · rename_i hBit
    exact iff_of_false (by simp) hBit

theorem lowMask : ∀ k < 32,
    (~~~((~~~0 : BitVec 32) <<< k)).setWidth 64 = BitVec.ofNat 64 (2 ^ k - 1) := by
  decide

theorem signextend_of_top (x : Word) {b : BitVec 32} (h : b.toNat.testBit 31) :
    signextend x b = x &&& BitVec.ofNat 64 (2 ^ (b.toNat % 32) - 1) := by
  have hShift : (b &&& 0x1f).toNat = b.toNat % 32 := toNat_and_low b (show 5 ≤ 32 by decide)
  rw [signextend, if_pos ((and_topBit b).mpr h), hShift, lowMask _ (Nat.mod_lt _ (by decide))]

theorem signextend_of_not_top (x : Word) {b : BitVec 32} (h : ¬b.toNat.testBit 31) :
    signextend x b = x := by
  rw [signextend, if_neg fun hTop => h ((and_topBit b).mp hTop)]
  exact BitVec.and_allOnes

theorem and_low_eq_iff (x : Word) {k : Nat} (hk : k < 32) :
    x &&& BitVec.ofNat 64 (2 ^ k - 1) = x ↔ x.toNat < 2 ^ k := by
  rw [← BitVec.toNat_inj, toNat_and_low x (show k ≤ 64 by omega),
    mod_eq_self_iff (Nat.two_pow_pos k)]

/-- Bit 31 of the index is clear, or the value has no more than the bits that are kept. -/
theorem signextend_eq_iff (x : Word) (b : BitVec 32) :
    signextend x b = x ↔ (b.toNat.testBit 31 → x.toNat < 2 ^ (b.toNat % 32)) := by
  by_cases hTop : b.toNat.testBit 31
  · rw [signextend_of_top x hTop, and_low_eq_iff x (Nat.mod_lt _ (by decide))]
    exact ⟨fun h _ => h, fun h => h hTop⟩
  · exact iff_of_true (signextend_of_not_top x hTop) fun h => absurd h hTop

theorem rewrites_signextend (below x b : Word) :
    Rewrites caseSIGNEXTEND [below, x, b] () [below, signextend x (b.setWidth 32)] := by
  refine (rewrites_require (by simp) "SIGNEXTEND").bind ?_ (by simp)
  refine ((rewrites_stackPop32 b).frame [below, x]).bind ?_ (by simp)
  refine ((rewrites_stackPop x).frame [below]).bind ?_ (by simp)
  rw [← apply_ite stackPush]
  exact (rewrites_stackPush _).frame [below]

theorem turnsInto_signextend (ys : List Word) (below x b : Word) :
    TurnsInto 0x0b (ys ++ [below] ++ [x, b]) (ys ++ [below] ++ [signextend x (b.setWidth 32)]) := by
  intro code pc capacity memory storage hFetch m hHolds
  have hRoom := hHolds.length_le
  rw [List.append_assoc] at hHolds ⊢
  have hCase : Rewrites (executeCase code (pc + 1) (decode 0x0b)) _ _ _ :=
    (rewrites_signextend below x b).andBreak (pc + 1)
  have hCycle := hCase.cycle hFetch
  exact hCycle capacity ys memory storage (by simp at hRoom ⊢; omega) m hHolds

theorem not_turnsInto_signextend (x b : Word) (items : List Word) :
    ¬TurnsInto 0x0b [x, b] items := by
  intro hTurns
  let m := (Stack.loaded 2 [x, b]).machine
  have hHolds : Machine.Holds 2 [x, b] _ _ m := Stack.loaded_holds (Nat.le_refl 2)
  have hShort : require 2 "SIGNEXTEND" (m.fetched 0) = .error (.exit
      ("Not enough elements on the stack for " ++ "SIGNEXTEND" ++ " operation.\n")) (m.fetched 0) :=
    (bind_of_ok rfl).trans ((exitIf_apply _ _ _).trans (if_pos (by decide : (1 : Int) < 2)))
  have hCase : caseSIGNEXTEND (m.fetched 0) = _ := bind_of_error hShort
  have hStop : cycle ⟨[0x0b], fun _ => 0⟩ 0 m = _ :=
    (cycle_of_getElem? (b := 0x0b) rfl m).trans (andBreak_of_error hCase 1)
  exact not_yields_of_error hStop hHolds (hTurns ⟨[0x0b], fun _ => 0⟩ 0 2 _ _ rfl)

theorem TurnsInto.unique {opcode : Byte} {items a b : List Word} (ha : TurnsInto opcode items a)
    (hb : TurnsInto opcode items b) : a = b := by
  have hHolds := Stack.loaded_holds (Nat.le_refl items.length)
  let code : Bytecode := ⟨[opcode], fun _ => 0⟩
  obtain ⟨_, m, hm, hm'⟩ :=
    (ha code 0 _ _ _ rfl).unique (hb code 0 _ _ _ rfl) hHolds hHolds
  exact hm.items.symm.trans hm'.items

/-! ## When it is the extension -/

theorem testBit_index (b : Word) : (b.setWidth 32).toNat.testBit 31 = b.toNat.testBit 31 := by
  rw [BitVec.toNat_setWidth, Nat.testBit_mod_two_pow]
  simp

theorem index_mod (b : Word) : (b.setWidth 32).toNat % 32 = b.toNat % 32 := by
  rw [BitVec.toNat_setWidth]
  exact Nat.mod_mod_of_dvd _ (by decide)

theorem signExtension_self_iff (b : Nat) (x : Int) :
    SignExtension b x x ↔ (b < 8 → -2 ^ (8 * b + 7) ≤ x ∧ x < 2 ^ (8 * b + 7)) := by
  unfold SignExtension
  split
  · rename_i hIndex
    rw [Int.sub_self, and_iff_left (dvd_zero _)]
    exact ⟨fun h _ => h, fun h => h hIndex⟩
  · rename_i hIndex
    exact iff_of_true rfl fun h => absurd h hIndex

/-- SIGNEXTEND extends the sign if and only if there is a third item, the value is in the range of
its low bytes already, and an index with bit 31 keeps all bits of the value. -/
theorem signextend_iff (xs : List Word) (x b : Word) :
    ExtendsSign xs x b ↔ xs ≠ [] ∧
      (b.toNat < 8 → -2 ^ (8 * b.toNat + 7) ≤ x.toInt ∧ x.toInt < 2 ^ (8 * b.toNat + 7)) ∧
      (b.toNat.testBit 31 → x.toNat < 2 ^ (b.toNat % 32)) := by
  have hKept := signextend_eq_iff x (b.setWidth 32)
  rw [testBit_index, index_mod] at hKept
  rw [← signExtension_self_iff, ← hKept]
  obtain rfl | ⟨ys, below, rfl⟩ := xs.eq_nil_or_concat
  · refine iff_of_false ?_ fun h => h.1 rfl
    rintro ⟨y, _, hTurns, _⟩
    exact not_turnsInto_signextend x b [y] hTurns
  rw [List.concat_eq_append]
  constructor
  · rintro ⟨y, hExtension, hTurns, _⟩
    have hItems := hTurns.unique (turnsInto_signextend ys below x b)
    obtain rfl : y = signextend x (b.setWidth 32) :=
      List.head_eq_of_cons_eq (List.append_cancel_left hItems)
    refine ⟨by simp, ?_⟩
    by_cases hTop : b.toNat.testBit 31
    · have hLarge : ¬b.toNat < 8 := fun hSmall => by
        have hBit := Nat.ge_two_pow_of_testBit hTop
        omega
      rw [SignExtension, if_neg hLarge] at hExtension
      have hSame := BitVec.eq_of_toInt_eq hExtension
      rw [SignExtension, if_neg hLarge]
      exact ⟨rfl, hSame⟩
    · have hSame : signextend x (b.setWidth 32) = x :=
        signextend_of_not_top x (by rwa [testBit_index])
      rw [hSame] at hExtension
      exact ⟨hExtension, hSame⟩
  · rintro ⟨_, hExtension, hSame⟩
    have hTurns := turnsInto_signextend ys below x b
    rw [hSame] at hTurns
    exact ⟨x, hExtension, hTurns, hTurns⟩

/-- SIGNEXTEND of 0x80 from byte 0 leaves 128 instead of -128, and on two items it exits. -/
theorem signextend_not_extension :
    let run (bytes : List Byte) := executeFor ⟨bytes, fun _ => 0⟩ 4 0
      (stackCreate 4 (fun _ => 0) zeroMemory).machine
    ((final (run [0x60, 7, 0x60, 0x80, 0x5f, 0x0b])).stack.items = [7, 128] ∧
        ¬ExtendsSign [7] 0x80 0) ∧
      (outcome (run [0x60, 1, 0x5f, 0x0b]) = .error (.exit
          "Not enough elements on the stack for SIGNEXTEND operation.\n") ∧ ¬ExtendsSign [] 1 0) := by
  refine ⟨⟨by decide +kernel, ?_⟩, by decide +kernel, ?_⟩
  · rintro ⟨y, hExtension, hTurns, _⟩
    have hItems := hTurns.unique (turnsInto_signextend [] 7 0x80 0)
    obtain rfl : y = 0x80 := List.head_eq_of_cons_eq (List.append_cancel_left hItems)
    rw [signExtension_self_iff] at hExtension
    revert hExtension
    decide
  · rintro ⟨y, _, hTurns, _⟩
    exact not_turnsInto_signextend 1 0 [y] hTurns

end Manhattan.Vm
