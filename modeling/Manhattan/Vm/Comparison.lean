import Manhattan.Vm.Rewrites

/-! # SLT, SGT and EQ

SLT and SGT compare the deeper operand, all of it, with the low half of the top; EQ
compares the top with the low half of the deeper one.
-/

namespace Manhattan.Vm

open Library.ExecRules

theorem rewrites_less (name : String) (a b : Word) :
    Rewrites (lowTopCase name fun a b => return ofBool (a.toInt < (b.setWidth 64).toInt)) [a, b] ()
      [ofBool (a.toInt < b.toInt % 2 ^ 32)] := by
  rw [← toInt_low b]
  exact rewrites_lowTopCase fun _ => rfl

theorem rewrites_greater (name : String) (a b : Word) :
    Rewrites (lowTopCase name fun a b => return ofBool (a.toInt > (b.setWidth 64).toInt)) [a, b] ()
      [ofBool (a.toInt > b.toInt % 2 ^ 32)] := by
  rw [← toInt_low b]
  exact rewrites_lowTopCase fun _ => rfl

theorem replaces_slt (a b : Word) :
    Replaces [0x12] [a, b] [ofBool (a.toInt < b.toInt % 2 ^ 32)] :=
  replaces_opcode (fun _ _ => rfl) (rewrites_less _ a b)

theorem replaces_sgt (a b : Word) :
    Replaces [0x13] [a, b] [ofBool (a.toInt > b.toInt % 2 ^ 32)] :=
  replaces_opcode (fun _ _ => rfl) (rewrites_greater _ a b)

theorem replaces_eq (a b : Word) :
    Replaces [0x14] [a, b] [ofBool (b.toInt = a.toInt % 2 ^ 32)] := by
  have hCase : ofBool (b.toInt = a.toInt % 2 ^ 32) = ofBool (b = low a) := by
    rw [ofBool_eq_iff, ← toInt_low a, decide_eq_decide]
    exact BitVec.toInt_inj
  rw [hCase]
  exact replaces_opcode (fun _ _ => rfl) (rewrites_lowSecondCase _ _ a b)

/-- The three comparisons order a and b as 64-bit integers. -/
structure SignedOrder (a b : Word) : Prop where
  slt : Replaces [0x12] [a, b] [ofBool (a.toInt < b.toInt)]
  sgt : Replaces [0x13] [a, b] [ofBool (a.toInt > b.toInt)]
  eq : Replaces [0x14] [a, b] [ofBool (a.toInt = b.toInt)]
  one : ∃! opcode : Byte, opcode ∈ [0x12, 0x13, 0x14] ∧ Replaces [opcode] [a, b] [1]
  mirror : Agree [0x12] [a, b] [0x13] [b, a]

/-- Cutting y or x down to 32 bits changes none of the comparisons. -/
def CutHarmless (x y : Int) : Prop :=
  (x < y % 2 ^ 32 ↔ x < y) ∧ (x > y % 2 ^ 32 ↔ x > y) ∧ (y = x % 2 ^ 32 ↔ x = y) ∧
    (y > x % 2 ^ 32 ↔ x < y)

theorem exactly_one {a b : Word} (hSlt : Replaces [0x12] [a, b] [ofBool (a.toInt < b.toInt)])
    (hSgt : Replaces [0x13] [a, b] [ofBool (a.toInt > b.toInt)])
    (hEq : Replaces [0x14] [a, b] [ofBool (a.toInt = b.toInt)]) :
    ∃! opcode : Byte, opcode ∈ [0x12, 0x13, 0x14] ∧ Replaces [opcode] [a, b] [1] := by
  have hLess := pushes_one_iff hSlt
  have hGreater := pushes_one_iff hSgt
  have hSame := pushes_one_iff hEq
  have hOnly : ∀ opcode : Byte, (opcode ∈ [0x12, 0x13, 0x14] ∧ Replaces [opcode] [a, b] [1]) ↔
      opcode = 0x12 ∧ a.toInt < b.toInt ∨ opcode = 0x13 ∧ a.toInt > b.toInt ∨
        opcode = 0x14 ∧ a.toInt = b.toInt := by
    intro opcode
    simp only [List.mem_cons, List.not_mem_nil, or_false]
    constructor
    · rintro ⟨rfl | rfl | rfl, h⟩
      · exact .inl ⟨rfl, hLess.mp h⟩
      · exact .inr (.inl ⟨rfl, hGreater.mp h⟩)
      · exact .inr (.inr ⟨rfl, hSame.mp h⟩)
    · rintro (⟨rfl, h⟩ | ⟨rfl, h⟩ | ⟨rfl, h⟩)
      · exact ⟨.inl rfl, hLess.mpr h⟩
      · exact ⟨.inr (.inl rfl), hGreater.mpr h⟩
      · exact ⟨.inr (.inr rfl), hSame.mpr h⟩
  simp only [hOnly]
  obtain h | h | h := lt_trichotomy a.toInt b.toInt
  · exact ⟨0x12, .inl ⟨rfl, h⟩, by
      rintro y (⟨rfl, _⟩ | ⟨rfl, h'⟩ | ⟨rfl, h'⟩)
      · rfl
      · omega
      · omega⟩
  · exact ⟨0x14, .inr (.inr ⟨rfl, h⟩), by
      rintro y (⟨rfl, h'⟩ | ⟨rfl, h'⟩ | ⟨rfl, h'⟩)
      · omega
      · omega
      · rfl⟩
  · exact ⟨0x13, .inr (.inl ⟨rfl, h⟩), by
      rintro y (⟨rfl, h'⟩ | ⟨rfl, h'⟩ | ⟨rfl, h'⟩)
      · omega
      · rfl
      · omega⟩

theorem signedOrder_iff_cutHarmless (a b : Word) :
    SignedOrder a b ↔ CutHarmless a.toInt b.toInt := by
  have hSlt := replaces_slt a b
  have hMirror : Agree [0x12] [a, b] [0x13] [b, a] ↔
      (b.toInt > a.toInt % 2 ^ 32 ↔ a.toInt < b.toInt % 2 ^ 32) := by
    rw [agree_iff hSlt (replaces_sgt b a), List.singleton_inj, ofBool_eq_iff, decide_eq_decide]
    exact iff_comm
  constructor
  · intro h
    have hLess := (pushed_iff hSlt).mp h.slt
    exact ⟨hLess, (pushed_iff (replaces_sgt a b)).mp h.sgt, (pushed_iff (replaces_eq a b)).mp h.eq,
      (hMirror.mp h.mirror).trans hLess⟩
  · rintro ⟨hLess, hGreater, hSame, hOther⟩
    have hS := (pushed_iff hSlt).mpr hLess
    have hG := (pushed_iff (replaces_sgt a b)).mpr hGreater
    have hE := (pushed_iff (replaces_eq a b)).mpr hSame
    exact ⟨hS, hG, hE, exactly_one hS hG hE, hMirror.mpr (hOther.trans hLess.symm)⟩

/-- The comparisons are those of 64-bit integers if and only if b and its low half are
the same or on the same side of a, a and its low half on the same side of b, and the low half
of a is not by chance b. -/
theorem signed_order_iff (a b : Word) :
    SignedOrder a b ↔
      (0 ≤ b.toInt ∧ b.toInt < 2 ^ 32 ∨ a.toInt < min b.toInt (b.toInt % 2 ^ 32) ∨
        max b.toInt (b.toInt % 2 ^ 32) < a.toInt) ∧
      (b.toInt = a.toInt % 2 ^ 32 → a.toInt = b.toInt) ∧
      (0 ≤ a.toInt ∧ a.toInt < 2 ^ 32 ∨ b.toInt ≤ min a.toInt (a.toInt % 2 ^ 32) ∨
        max a.toInt (a.toInt % 2 ^ 32) < b.toInt) := by
  rw [signedOrder_iff_cutHarmless, CutHarmless]
  omega

/-- PUSH1 0, PUSH1 0, NOT, SLT: 0 is taken to be below -1. -/
theorem signed_order_fails :
    let code : Bytecode := ⟨[0x60, 0, 0x60, 0, 0x19, 0x12], fun _ => 0⟩
    let s := stackCreate 4 (fun _ => 0) zeroMemory
    (final (executeFor code 3 0 s.machine)).stack.items = [0, -1] ∧
      outcome (executeFor code 4 0 s.machine) = .ok (.inl 6) ∧
      (final (executeFor code 4 0 s.machine)).stack.items = [1] ∧
      ¬(0 : Word).toInt < (-1 : Word).toInt := by
  decide +kernel

end Manhattan.Vm
