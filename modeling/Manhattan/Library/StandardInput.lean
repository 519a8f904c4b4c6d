import Manhattan.Library.Conversions

/-! # Standard input

`stdin` is the bytes that are still to be read; after them comes the end of the file.
-/

namespace Manhattan.Library.StandardInput

open Library.CStrings Library.Conversions

def newlineByte : Byte := 10

def getchar (input : List Byte) : List Byte := input.tail

/-- The bytes up to the first newline, which is one of them, but at most `room`. -/
def line : Nat → List Byte → List Byte
  | 0, _ => []
  | _, [] => []
  | room + 1, b :: input => if b = newlineByte then [b] else b :: line room input

theorem length_line_le (room : Nat) (input : List Byte) : (line room input).length ≤ room := by
  induction room generalizing input with
  | zero => exact Nat.le_refl 0
  | succ room ih =>
    cases input with
    | nil => exact Nat.zero_le _
    | cons b input =>
      rw [line]
      split
      · exact Nat.succ_le_succ (Nat.zero_le room)
      · exact Nat.succ_le_succ (ih input)

/-- `fgets(r, sizeof(r), stdin)`; at the end of the file the buffer is left as it is. -/
def fgets {room : Nat} (r : Region (room + 1)) (input : List Byte) :
    Region (room + 1) × List Byte :=
  match input with
  | [] => (r, [])
  | b :: input =>
    let text := line room (b :: input)
    (r.write 0 (text ++ [0]) (by
      rw [Nat.zero_add, List.length_append]
      exact Nat.succ_le_succ (length_line_le room _)), (b :: input).drop text.length)

theorem mem_zero_fgets {room : Nat} {r : Region (room + 1)} (h : 0 ∈ r.bytes)
    (input : List Byte) : 0 ∈ (fgets r input).1.bytes := by
  cases input with
  | nil => exact h
  | cons b input =>
    have hWritten : (0 : Byte) ∈ line room (b :: input) ++ [0] :=
      List.mem_append_right _ (List.mem_singleton.mpr rfl)
    exact List.mem_append_right _ (List.mem_append_left _ hWritten)

/-- `r[strcspn(r, "\n")] = 0`, and the same with `strchr` -/
def cutNewline {size : Nat} (r : Region size) : Option (Region size) := do
  let text ← r.string 0
  r.strcpy (text.chars.idxOf newlineByte) .empty

theorem exists_cutNewline {size : Nat} {r : Region size} (h : 0 ∈ r.bytes) :
    ∃ r', cutNewline r = some r' ∧ 0 ∈ r'.bytes := by
  obtain ⟨text, hText, hLength⟩ := r.exists_string h
  have hIndex : text.chars.idxOf newlineByte ≤ text.length := List.idxOf_le_length
  have hEmpty : CString.empty.length = 0 := rfl
  obtain ⟨r', hCopy⟩ :=
    r.exists_strcpy (text.chars.idxOf newlineByte) .empty (by omega)
  refine ⟨r', ?_, Region.mem_zero_of_string (Region.string_strcpy hCopy)⟩
  rw [cutNewline, hText]
  exact hCopy

def clampLong (i : Int) : Int := max (-(2 ^ 63)) (min (2 ^ 63 - 1) i)

def readInt (negative : Bool) (input : List Byte) : Option (BitVec 32) :=
  match input.takeWhile isDigit with
  | [] => none
  | digits =>
    let i : Int := numberOf digits
    some (BitVec.ofInt 32 (clampLong (if negative then -i else i)))

/-- `scanf("%d", &old)` -/
def scanfInt (input : List Byte) (old : BitVec 32) : BitVec 32 :=
  match input.dropWhile isSpace with
  | 45 :: rest => (readInt true rest).getD old
  | 43 :: rest => (readInt false rest).getD old
  | rest => (readInt false rest).getD old

end Manhattan.Library.StandardInput
