import Manhattan.Library.CStrings

/-! # Numbers read and printed

`strtol` to the base 16 of a short text, and `%.nLf` of a `long double` in the extended
format of the x87: the exact value is rounded to `n` decimals, ties to even.
-/

namespace Manhattan.Library.Conversions

open Library.CStrings

/-! ## strtol -/

def isSpace (b : Byte) : Bool := b = 32 || (9 ≤ b && b ≤ 13)

def hexValue (b : Byte) : Option Nat :=
  if 48 ≤ b ∧ b ≤ 57 then some (b.toNat - 48)
  else if 97 ≤ b ∧ b ≤ 102 then some (b.toNat - 87)
  else if 65 ≤ b ∧ b ≤ 70 then some (b.toNat - 55)
  else none

/-- The digits up to the first byte that is none, behind those that gave `sofar`. -/
def readHex (sofar : Nat) : List Byte → Nat
  | [] => sofar
  | b :: rest =>
    match hexValue b with
    | some digit => readHex (16 * sofar + digit) rest
    | none => sofar

def readHexNat : List Byte → Nat
  | 48 :: x :: d :: rest =>
    if (x = 120 ∨ x = 88) ∧ (hexValue d).isSome then readHex 0 (d :: rest)
    else readHex 0 (48 :: x :: d :: rest)
  | text => readHex 0 text

/-- `strtol(text, NULL, 16)` where the number fits a `long` -/
def strtolHex (text : List Byte) : Int :=
  match text.dropWhile isSpace with
  | 45 :: rest => -(readHexNat rest : Int)
  | 43 :: rest => readHexNat rest
  | rest => readHexNat rest

/-! ## sscanf -/

/-- The number of a text that starts with a digit -/
def leadingHex : List Byte → Option Nat
  | [] => none
  | b :: rest => (hexValue b).map fun digit => readHex digit rest

/-- `0x` is skipped. Where no digit is behind it the number is 0, as glibc has it. -/
def scanHexNat : List Byte → Option Nat
  | 48 :: x :: rest =>
    if x = 120 ∨ x = 88 then some (readHex 0 rest) else leadingHex (48 :: x :: rest)
  | text => leadingHex text

/-- `sscanf(text, "%2x", &x)` and other widths, where the number fits an `unsigned int`: what is
stored, and nothing if the result is not 1. -/
def sscanfHex (width : Nat) (text : List Byte) : Option (BitVec 32) :=
  match (text.dropWhile isSpace).take width with
  | 45 :: rest => (scanHexNat rest).map fun n => -BitVec.ofNat 32 n
  | 43 :: rest => (scanHexNat rest).map (BitVec.ofNat 32)
  | rest => (scanHexNat rest).map (BitVec.ofNat 32)

/-- Nothing is read behind the width. -/
theorem sscanfHex_append {b : Byte} (hb : ¬isSpace b) (field more : List Byte) :
    sscanfHex (b :: field).length (b :: field ++ more) =
      sscanfHex (b :: field).length (b :: field) := by
  unfold sscanfHex
  rw [List.cons_append, List.dropWhile_cons_of_neg hb, List.dropWhile_cons_of_neg hb,
    ← List.cons_append, List.take_left, List.take_length]

/-! ## Two digits -/

theorem hexValue_range {b : Byte} (h : (hexValue b).isSome) :
    48 ≤ b ∧ b ≤ 57 ∨ 97 ≤ b ∧ b ≤ 102 ∨ 65 ≤ b ∧ b ≤ 70 := by
  unfold hexValue at h
  grind

theorem not_isSpace_of_hexValue (b : Byte) (h : (hexValue b).isSome) : ¬isSpace b := by
  have hRange := hexValue_range h
  simp only [isSpace, Bool.or_eq_true, Bool.and_eq_true, decide_eq_true_eq]
  bv_omega

theorem ne_sign_of_hexValue (b : Byte) (h : (hexValue b).isSome) : b ≠ 45#8 ∧ b ≠ 43#8 := by
  have hRange := hexValue_range h
  bv_omega

theorem ne_x_of_hexValue (b : Byte) (h : (hexValue b).isSome) : ¬(b = 120 ∨ b = 88) := by
  have hRange := hexValue_range h
  bv_omega

theorem hexValue_lt (b : Byte) (d : Nat) (h : d ∈ hexValue b) : d < 16 := by
  have hRange := hexValue_range (Option.isSome_of_mem h)
  unfold hexValue at h
  split at h
  · obtain rfl := Option.some.inj h
    bv_omega
  · split at h
    · obtain rfl := Option.some.inj h
      bv_omega
    · split at h
      · obtain rfl := Option.some.inj h
        bv_omega
      · cases h

theorem strtolHex_pair {a b : Byte} {high low : Nat} (ha : hexValue a = some high)
    (hb : hexValue b = some low) : strtolHex [a, b] = (16 * high + low : Nat) := by
  have hDigit : (hexValue a).isSome := by rw [ha]; rfl
  obtain ⟨h45, h43⟩ := ne_sign_of_hexValue a hDigit
  have hRead : readHexNat [a, b] = 16 * high + low := by
    simp only [readHexNat, readHex, ha, hb, Nat.mul_zero, Nat.zero_add]
  unfold strtolHex
  rw [List.dropWhile_cons_of_neg (not_isSpace_of_hexValue a hDigit)]
  split
  · rename_i h
    exact absurd (List.cons.inj h).1 h45
  · rename_i h
    exact absurd (List.cons.inj h).1 h43
  · rw [hRead]

theorem scanHexNat_pair {a b : Byte} {high low : Nat} (ha : hexValue a = some high)
    (hb : hexValue b = some low) : scanHexNat [a, b] = some (16 * high + low) := by
  have hx := ne_x_of_hexValue b (by rw [hb]; rfl)
  have hLeading : leadingHex [a, b] = some (16 * high + low) := by
    simp only [leadingHex, ha, Option.map_some, readHex, hb]
  unfold scanHexNat
  split
  · rename_i h
    cases h
    rw [if_neg hx]
    exact hLeading
  · exact hLeading

theorem sscanfHex_pair {a b : Byte} {high low : Nat} (ha : hexValue a = some high)
    (hb : hexValue b = some low) (more : List Byte) :
    sscanfHex 2 (a :: b :: more) = some (BitVec.ofNat 32 (16 * high + low)) := by
  have hDigit : (hexValue a).isSome := by rw [ha]; rfl
  obtain ⟨h45, h43⟩ := ne_sign_of_hexValue a hDigit
  refine (sscanfHex_append (not_isSpace_of_hexValue a hDigit) [b] more).trans ?_
  unfold sscanfHex
  rw [List.dropWhile_cons_of_neg (not_isSpace_of_hexValue a hDigit), List.take_length]
  split
  · rename_i h
    exact absurd (List.cons.inj h).1 h45
  · rename_i h
    exact absurd (List.cons.inj h).1 h43
  · rw [scanHexNat_pair ha hb]
    rfl

/-! ## printf -/

def upperHexDigit (d : Nat) : Byte := BitVec.ofNat 8 (if d < 10 then 48 + d else 55 + d)

/-- `%02X` of an unsigned number -/
def upperHex02 (n : Nat) : CString where
  chars := List.replicate (2 - (Nat.digits 16 n).length) 48 ++
    (Nat.digits 16 n).reverse.map upperHexDigit
  noNul h := by
    rcases List.mem_append.mp h with hPad | hDigits
    · exact absurd (List.eq_of_mem_replicate hPad) (by decide)
    · exact digits_noNul _ 16 _ (fun d hd => Nat.digits_lt_base (by decide) hd) (by decide) hDigits

/-! ## long double -/

/-- A finite value is `significand * 2 ^ (exponent - 16445)`. -/
inductive LongDouble
  | finite (negative : Bool) (significand : BitVec 64) (exponent : Fin 32766)
  | infinite (negative : Bool)
  | nan (negative : Bool)

def roundHalfEven (n d : Nat) : Nat :=
  if 2 * (n % d) < d then n / d
  else if d < 2 * (n % d) then n / d + 1
  else if n / d % 2 = 0 then n / d
  else n / d + 1

theorem roundHalfEven_le (n d : Nat) : roundHalfEven n d ≤ n / d + 1 := by
  unfold roundHalfEven
  split_ifs <;> omega

theorem whole_le {m w e k s : Nat} (hm : m < 2 ^ w) (he : w + e ≤ k + s) (p : Nat) :
    roundHalfEven (m * 2 ^ e * 10 ^ p) (2 ^ s) / 10 ^ p ≤ 2 ^ k := by
  have hPower : 0 < 10 ^ p := Nat.pow_pos (by decide)
  have hScaled : m * 2 ^ e < 2 ^ k * 2 ^ s := by
    calc m * 2 ^ e < 2 ^ w * 2 ^ e := Nat.mul_lt_mul_of_pos_right hm (Nat.two_pow_pos e)
      _ = 2 ^ (w + e) := (Nat.pow_add 2 w e).symm
      _ ≤ 2 ^ (k + s) := Nat.pow_le_pow_right (by decide) he
      _ = 2 ^ k * 2 ^ s := Nat.pow_add 2 k s
  have hLess : m * 2 ^ e * 10 ^ p / 2 ^ s < 2 ^ k * 10 ^ p := by
    rw [Nat.div_lt_iff_lt_mul (Nat.two_pow_pos s), Nat.mul_right_comm (2 ^ k)]
    exact Nat.mul_lt_mul_of_pos_right hScaled hPower
  calc roundHalfEven (m * 2 ^ e * 10 ^ p) (2 ^ s) / 10 ^ p
      ≤ 2 ^ k * 10 ^ p / 10 ^ p := Nat.div_le_div_right ((roundHalfEven_le _ _).trans hLess)
    _ = 2 ^ k := Nat.mul_div_cancel _ hPower

def point : CString := ⟨[46], by decide⟩

def decimals : Nat → Nat → CString
  | 0, _ => .empty
  | width + 1, n => decimals width (n / 10) ++ ⟨[decimalDigit (n % 10)], by
      have hDigit : ∀ d < 10, 0 ∉ [decimalDigit d] := by decide
      exact hDigit _ (Nat.mod_lt _ (by decide))⟩

theorem length_decimals (width n : Nat) : (decimals width n).length = width := by
  induction width generalizing n with
  | zero => rfl
  | succ width ih =>
    rw [decimals, CString.length_append, ih]
    rfl

def fixedPoint (precision n : Nat) : CString :=
  decimalNat (n / 10 ^ precision) ++ point ++ decimals precision n

def sign (negative : Bool) : CString := if negative then minus else .empty

namespace LongDouble

/-- `%.nLf` for a positive `n`, and `%Lf` for 6 -/
def print (precision : Nat) : LongDouble → CString
  | finite negative significand exponent => sign negative ++
      fixedPoint precision
        (roundHalfEven (significand.toNat * 2 ^ exponent.val * 10 ^ precision) (2 ^ 16445))
  | infinite negative => sign negative ++ ⟨[105, 110, 102], by decide⟩
  | nan negative => sign negative ++ ⟨[110, 97, 110], by decide⟩

theorem length_sign_le (negative : Bool) : (sign negative).length ≤ 1 := by
  cases negative <;> decide

theorem length_print_le (precision : Nat) (x : LongDouble) :
    (x.print precision).length ≤ precision + 4935 := by
  cases x with
  | finite negative significand exponent =>
    have hSign := length_sign_le negative
    have hDecimal : 2 ^ 16384 < 10 ^ 4933 := by decide +kernel
    have hExponent : 64 + exponent.val ≤ 16384 + 16445 := by omega
    have hWhole := length_decimalNat_le (by decide)
      ((whole_le significand.isLt hExponent precision).trans_lt hDecimal)
    have hPoint : point.length = 1 := rfl
    simp only [print, fixedPoint, CString.length_append, length_decimals]
    omega
  | infinite negative =>
    have hSign := length_sign_le negative
    have hText : CString.length ⟨[105, 110, 102], by decide⟩ = 3 := rfl
    rw [print, CString.length_append]
    omega
  | nan negative =>
    have hSign := length_sign_le negative
    have hText : CString.length ⟨[110, 97, 110], by decide⟩ = 3 := rfl
    rw [print, CString.length_append]
    omega

end LongDouble

end Manhattan.Library.Conversions
