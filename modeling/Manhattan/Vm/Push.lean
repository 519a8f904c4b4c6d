import Manhattan.Vm.CaseRules

/-! # PUSH

`casePUSH` takes the immediates one by one and pushes each of them, so the n bytes of PUSHn
become n items of the stack and not one word.
-/

namespace Manhattan.Vm

open Library.ExecRules

/-- The big-endian value of the bytes modulo 2^64. -/
def bigEndian (bytes : List Byte) : Word :=
  BitVec.ofNat 64 (bytes.foldl (fun value b => 256 * value + b.toNat) 0)

def Bytecode.slice (code : Bytecode) (pc n : Nat) : List Byte := (code.bytes.drop pc).take n

variable {capacity : Nat} {xs : List Word} {memory : Memory} {storage : Storage} {m : Machine}
  {code : Bytecode}

theorem Bytecode.slice_succ {pc : Nat} (n : Nat) (hPc : pc < code.size) :
    code.slice pc (n + 1) = code.read pc :: code.slice (pc + 1) n := by
  have hByte : code.read pc = code.bytes.get ⟨pc, hPc⟩ := dif_pos hPc
  rw [Bytecode.slice, Bytecode.slice, hByte, List.drop_eq_getElem_cons hPc, List.take_succ_cons]
  rfl

/-- Every immediate becomes an item of its own, the last one the top. -/
theorem casePUSH_holds (n pc : Nat) (hPresent : pc + n ≤ code.size)
    (h : m.Holds capacity xs memory storage) (hRoom : xs.length + n ≤ capacity) :
    ∃ m', casePUSH code n pc m = .ok (pc + n) m' ∧
      m'.Holds capacity (xs ++ (code.slice pc n).map (BitVec.setWidth 64)) memory storage := by
  induction n generalizing pc xs m with
  | zero => exact ⟨m, rfl, by simpa [Bytecode.slice] using h⟩
  | succ n ih =>
    obtain ⟨m₁, hPush, h₁⟩ := stackPush_holds ((code.read pc).setWidth 64)
      (h.trace (.immediate pc :: m.trace)) (by omega)
    have hLength : (xs ++ [(code.read pc).setWidth 64]).length = xs.length + 1 := by simp
    obtain ⟨m₂, hRest, h₂⟩ := ih (pc + 1) (by omega) h₁ (by omega)
    refine ⟨m₂, ?_, ?_⟩
    · rw [casePUSH_succ, bind_of_ok hPush, hRest]
      congr 1
      omega
    · rw [Bytecode.slice_succ n (by omega), List.map_cons]
      rwa [List.append_assoc, List.singleton_append] at h₂

theorem casePUSH_top {n pc pc' : Nat} {m' : Machine} (h : casePUSH code n pc m = .ok pc' m') :
    m'.stack.top = m.stack.top + n := by
  induction n generalizing pc m with
  | zero =>
    cases h
    simp
  | succ n ih =>
    rw [casePUSH_succ] at h
    obtain ⟨_, m₁, hPush, hRest⟩ := bind_eq_ok h
    have hPushTop := stackPush_top hPush
    have hRestTop := ih hRest
    rw [hRestTop, hPushTop]
    push_cast
    omega

theorem decode_push {n : Nat} (hn : 1 ≤ n ∧ n ≤ 32) :
    decode (BitVec.ofNat 8 (0x5f + n)) = .push n := by
  obtain ⟨hLower, hUpper⟩ := hn
  interval_cases n <;> rfl

theorem cycle_push {n pc : Nat} (hn : 1 ≤ n ∧ n ≤ 32)
    (hCode : code.bytes[pc]? = some (BitVec.ofNat 8 (0x5f + n))) (m : Machine) :
    cycle code pc m =
      (casePUSH code n (pc + 1) >>= fun pc' => pure (.inl pc')) (m.fetched pc) := by
  rw [cycle_of_getElem? hCode, decode_push hn]
  rfl

theorem bigEndian_singleton (b : Byte) : bigEndian [b] = b.setWidth 64 := by
  exact BitVec.eq_of_toNat_eq (by simp [bigEndian])

/-- PUSHn puts the value of its n immediates on the stack as one word if and only if n = 1. -/
theorem push_one_word_iff {n pc : Nat} (hn : 1 ≤ n ∧ n ≤ 32)
    (hCode : code.bytes[pc]? = some (BitVec.ofNat 8 (0x5f + n))) (hPresent : pc + n < code.size)
    (h : m.Holds capacity xs memory storage) (hRoom : xs.length < capacity) :
    (∃ m', cycle code pc m = .ok (.inl (pc + n + 1)) m' ∧
      m'.Holds capacity (xs ++ [bigEndian (code.slice (pc + 1) n)]) memory storage) ↔ n = 1 := by
  rw [cycle_push hn hCode]
  constructor
  · rintro ⟨m', hRun, h'⟩
    obtain ⟨_, _, hCase, hPure⟩ := bind_eq_ok hRun
    cases hPure
    have hTop := casePUSH_top hCase
    have hBefore := (h.fetched pc).top
    have hAfter := h'.top
    rw [List.length_append, List.length_singleton] at hAfter
    omega
  · rintro rfl
    obtain ⟨m', hRun, h'⟩ := casePUSH_holds 1 (pc + 1) (Nat.succ_le_of_lt hPresent)
      (h.fetched pc) hRoom
    have hSlice : code.slice (pc + 1) 1 = [code.read (pc + 1)] :=
      Bytecode.slice_succ 0 (by omega)
    rw [hSlice] at h' ⊢
    rw [bigEndian_singleton]
    exact ⟨m', bind_of_ok hRun, h'⟩

/-- PUSH2 1 2 leaves the two items 1 and 2, and not 258. -/
theorem push_not_word :
    let code : Bytecode := ⟨[0x61, 1, 2], fun _ => 0⟩
    let r := cycle code 0 (stackCreate 4 (fun _ => 0) zeroMemory).machine
    outcome r = .ok (.inl 3) ∧ (final r).stack.items = [1, 2] ∧
      bigEndian (code.slice 1 2) = 258 := by
  decide +kernel

theorem push_one_word_iff_seven :
    ∃ m', cycle ⟨[0x60, 7], fun _ => 0⟩ 0 (stackCreate 4 (fun _ => 0) zeroMemory).machine =
        .ok (.inl 2) m' ∧
      m'.Holds 4 [7] zeroMemory.val ⟨List.replicate 4 none, []⟩ := by
  have hHolds : (stackCreate 4 (fun _ => 0) zeroMemory).machine.Holds 4 [] zeroMemory.val
      ⟨List.replicate 4 none, []⟩ := ⟨⟨rfl, rfl, by decide, by decide⟩, rfl, rfl, rfl⟩
  let code : Bytecode := ⟨[0x60, 7], fun _ => 0⟩
  have hPresent : 0 + 1 < code.size := by decide
  exact (push_one_word_iff (by decide) rfl hPresent hHolds (by decide)).mpr rfl

end Manhattan.Vm
