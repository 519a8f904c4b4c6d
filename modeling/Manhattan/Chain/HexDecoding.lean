import Manhattan.Chain.KeyHex

/-! # What the decoders accept and touch

`hex2bin` reads each pair of digits with `sscanf`, which takes less for a number than two digits.
`hex_to_bin` is called with a length that counts the NUL of the text.
-/

namespace Manhattan.Chain

open Library.CStrings Library.Conversions

/-! ## hex2bin -/

/-- The text starts with a digit, or with a sign and a digit. -/
def startsNumber : List Byte → Bool
  | [] => false
  | [a] => (hexValue a).isSome
  | a :: b :: _ => (hexValue a).isSome || (a = 43 || a = 45) && (hexValue b).isSome

/-- The text at pair `i`, behind the white space that `sscanf` skips. -/
def pairText (hexstring : CString) (i : Nat) : List Byte :=
  (hexstring.drop (2 * i)).chars.dropWhile isSpace

def HexDigits (hexstring : CString) (len : Nat) : Prop :=
  ∀ b ∈ hexstring.chars.take (2 * len), (hexValue b).isSome

def pairValue (hexstring : CString) (i : Nat) : Option Byte := do
  let high ← hexstring.chars[2 * i]? >>= hexValue
  let low ← hexstring.chars[2 * i + 1]? >>= hexValue
  return BitVec.ofNat 8 (16 * high + low)

def AcceptsHex {size : Nat} (p : Region size) (hexstring : CString) (len : Nat) : Prop :=
  ∃ r p', hex2bin p hexstring len = some (r, p') ∧ (r = 0 ↔ HexDigits hexstring len) ∧
    (HexDigits hexstring len → ∀ i < len, p'.bytes[i]? = pairValue hexstring i) ∧
    (¬HexDigits hexstring len → r = -1)

/-! ### One pair -/

theorem leadingHex_isSome (b : Byte) (rest : List Byte) :
    (leadingHex (b :: rest)).isSome = (hexValue b).isSome := Option.isSome_map

theorem scanHexNat_isSome_digit (a : Byte) : (scanHexNat [a]).isSome = (hexValue a).isSome := by
  rw [scanHexNat]
  · exact leadingHex_isSome a []
  · simp

theorem scanHexNat_isSome_pair (a b : Byte) :
    (scanHexNat [a, b]).isSome = (hexValue a).isSome := by
  unfold scanHexNat
  split
  · rename_i h
    cases h
    split
    · rfl
    · exact leadingHex_isSome _ _
  · exact leadingHex_isSome _ _

theorem sscanfHex_isSome (text : List Byte) :
    (sscanfHex 2 text).isSome = startsNumber (text.dropWhile isSpace) := by
  unfold sscanfHex
  generalize text.dropWhile isSpace = rest
  match rest with
  | [] => rfl
  | [a] =>
    simp only [List.take_succ_cons, List.take_nil]
    split
    · rename_i h
      cases h
      rfl
    · rename_i h
      cases h
      rfl
    · simp [startsNumber, scanHexNat_isSome_digit]
  | a :: b :: rest =>
    simp only [List.take_succ_cons, List.take_zero]
    split
    · rename_i h
      cases h
      simp [startsNumber, scanHexNat_isSome_digit, hexValue]
    · rename_i h
      cases h
      simp [startsNumber, scanHexNat_isSome_digit, hexValue]
    · rename_i hMinus hPlus
      have h45 : a ≠ 45#8 := fun hEq => hMinus [b] (by rw [hEq])
      have h43 : a ≠ 43#8 := fun hEq => hPlus [b] (by rw [hEq])
      simp [startsNumber, scanHexNat_isSome_pair, h45, h43]

/-! ### The text -/

def pairBytes (hexstring : CString) (len : Nat) : List Byte :=
  (List.range len).map fun i => (pairValue hexstring i).getD 0

theorem HexDigits.pair {hexstring : CString} {len : Nat} (h : HexDigits hexstring len)
    (hText : 2 * len ≤ hexstring.length) {i : Nat} (hi : i < len) :
    ∃ byte, pairValue hexstring i = some byte ∧
      sscanfHex 2 (hexstring.drop (2 * i)).chars = some (byte.setWidth 32) := by
  have hHigh : 2 * i < hexstring.chars.length := Nat.lt_of_lt_of_le (by omega) hText
  have hLow : 2 * i + 1 < hexstring.chars.length := Nat.lt_of_lt_of_le (by omega) hText
  have hDigit : ∀ k (hk : k < hexstring.chars.length), k < 2 * len →
      ∃ d, hexValue hexstring.chars[k] = some d := by
    intro k hk hInside
    exact Option.isSome_iff_exists.mp
      (h _ (List.mem_iff_getElem.mpr ⟨k, by rw [List.length_take]; omega, List.getElem_take⟩))
  obtain ⟨high, ha⟩ := hDigit _ hHigh (by omega)
  obtain ⟨low, hb⟩ := hDigit _ hLow (by omega)
  have hValue : 16 * high + low < 256 := by
    have h1 := hexValue_lt _ _ ha
    have h2 := hexValue_lt _ _ hb
    omega
  refine ⟨BitVec.ofNat 8 (16 * high + low), ?_, ?_⟩
  · rw [pairValue, List.getElem?_eq_getElem hHigh, List.getElem?_eq_getElem hLow]
    simp only [Option.bind_eq_bind, Option.bind_some, ha, hb]
    rfl
  · have hDrop : (hexstring.drop (2 * i)).chars =
        hexstring.chars[2 * i] :: hexstring.chars[2 * i + 1] :: hexstring.chars.drop (2 * i + 2) := by
      rw [← List.drop_eq_getElem_cons hLow]
      exact List.drop_eq_getElem_cons hHigh
    rw [hDrop, sscanfHex_pair ha hb]
    congr 1
    apply BitVec.eq_of_toNat_eq
    simp only [BitVec.toNat_ofNat, BitVec.toNat_setWidth]
    omega

theorem HexDigits.scans {hexstring : CString} {len : Nat} (h : HexDigits hexstring len)
    (hText : 2 * len ≤ hexstring.length) : ScansAs hexstring (pairBytes hexstring len) := by
  intro i hi
  have hInside : i < len := by rwa [pairBytes, List.length_map, List.length_range] at hi
  obtain ⟨byte, hValue, hPair⟩ := h.pair hText hInside
  have hByte : (pairBytes hexstring len)[i] = byte := by
    simp only [pairBytes, List.getElem_map, List.getElem_range, hValue, Option.getD_some]
  rw [hByte]
  exact ⟨by omega, hPair⟩

theorem HexDigits.hex2bin {size : Nat} {hexstring : CString} {len : Nat}
    (h : HexDigits hexstring len) (hText : 2 * len ≤ hexstring.length) (p : Region size)
    (hRoom : len ≤ size) :
    ∃ p', hex2bin p hexstring len = some (0, p') ∧
      ∀ i < len, p'.bytes[i]? = pairValue hexstring i := by
  have hLength : (pairBytes hexstring len).length = len := by
    rw [pairBytes, List.length_map, List.length_range]
  obtain ⟨p', hResult, hTake⟩ := hex2binFrom_scanned (h.scans hText) (by omega) (p := p)
    (hLength.symm ▸ Nat.zero_add len) rfl
  rw [hLength] at hResult hTake
  refine ⟨p', hResult, ?_⟩
  intro i hi
  obtain ⟨byte, hValue, _⟩ := h.pair hText hi
  rw [hValue, ← List.getElem?_take_of_lt hi, hTake, pairBytes, List.getElem?_map,
    List.getElem?_range hi]
  simp only [Option.map_some, hValue, Option.getD_some]

theorem hex2binFrom_result {size : Nat} {hexstring : CString} {turns i : Nat}
    (hText : 2 * (i + turns) ≤ hexstring.length) (hRoom : i + turns ≤ size) (p : Region size) :
    ∃ r p', hex2binFrom hexstring p i turns = some (r, p') ∧ (r = 0 ∨ r = -1) ∧
      (r = 0 ↔ ∀ k, i ≤ k → k < i + turns → startsNumber (pairText hexstring k)) := by
  induction turns generalizing p i with
  | zero => exact ⟨0, p, rfl, .inl rfl, by simp only [true_iff]; omega⟩
  | succ turns ih =>
    have hStarts : (sscanfHex 2 (hexstring.drop (2 * i)).chars).isSome =
        startsNumber (pairText hexstring i) := sscanfHex_isSome _
    rw [hex2binFrom, if_neg (by omega)]
    cases hPair : sscanfHex 2 (hexstring.drop (2 * i)).chars with
    | none =>
      rw [hPair] at hStarts
      refine ⟨-1, p, rfl, .inr rfl, fun h => absurd h (by decide), fun h => ?_⟩
      have hFirst := h i (Nat.le_refl i) (by omega)
      rw [← hStarts] at hFirst
      cases hFirst
    | some x =>
      rw [hPair] at hStarts
      have hFits : i + [x.setWidth 8].length ≤ size := by
        rw [List.length_singleton]
        omega
      obtain ⟨r, p', hResult, hValues, hIff⟩ := ih (i := i + 1) (by omega) (by omega)
        (p.write i [x.setWidth 8] hFits)
      refine ⟨r, p', ?_, hValues, hIff.trans ⟨?_, ?_⟩⟩
      · simp only [Region.store, dif_pos hFits, Option.bind_eq_bind, Option.bind_some]
        exact hResult
      · intro h k hk hInside
        obtain rfl | hLater := Nat.eq_or_lt_of_le hk
        · exact hStarts.symm
        · exact h k hLater (by omega)
      · intro h k hk hInside
        exact h k (by omega) (by omega)

theorem hex2bin_result {size : Nat} {hexstring : CString} {len : Nat}
    (hText : 2 * len ≤ hexstring.length) (hRoom : len ≤ size) (p : Region size) :
    ∃ r p', hex2bin p hexstring len = some (r, p') ∧ (r = 0 ∨ r = -1) ∧
      (r = 0 ↔ ∀ i < len, startsNumber (pairText hexstring i)) := by
  have hEnd : 0 + len = len := Nat.zero_add len
  obtain ⟨r, p', hResult, hValues, hIff⟩ :=
    hex2binFrom_result (hEnd.symm ▸ hText) (hEnd.symm ▸ hRoom) p
  refine ⟨r, p', hResult, hValues, hIff.trans ?_⟩
  rw [hEnd]
  exact ⟨fun h k hk => h k (Nat.zero_le k) hk, fun h k _ hk => h k hk⟩

/-- A text is taken for what it is when it holds hexadecimal digits only, or at one pair no number
starts. -/
theorem acceptsHex_iff {size : Nat} (p : Region size) (hexstring : CString) (len : Nat)
    (hText : 2 * len ≤ hexstring.length) (hRoom : len ≤ size) :
    AcceptsHex p hexstring len ↔
      HexDigits hexstring len ∨ ∃ i < len, ¬startsNumber (pairText hexstring i) := by
  obtain ⟨r, p', hResult, hValues, hIff⟩ := hex2bin_result hText hRoom p
  constructor
  · rintro ⟨r', p'', hResult', hAccepts, _, _⟩
    by_cases hDigits : HexDigits hexstring len
    · exact .inl hDigits
    · obtain ⟨rfl, rfl⟩ := Prod.mk.inj (Option.some.inj (hResult'.symm.trans hResult))
      have hSome := mt hIff.mpr (mt hAccepts.mp hDigits)
      push Not at hSome
      exact .inr hSome
  · intro h
    by_cases hDigits : HexDigits hexstring len
    · obtain ⟨p'', hHex, hBytes⟩ := hDigits.hex2bin hText p hRoom
      exact ⟨0, p'', hHex, by simp only [hDigits], fun _ => hBytes, fun hNot => absurd hDigits hNot⟩
    · obtain ⟨i, hi, hStarts⟩ := h.resolve_left hDigits
      have hNonzero : r ≠ 0 := fun hZero => hStarts (hIff.mp hZero i hi)
      exact ⟨r, p', hResult, by simp only [hNonzero, hDigits], fun hAll => absurd hAll hDigits,
        fun _ => hValues.resolve_left hNonzero⟩

theorem acceptsHex_g1 : AcceptsHex (Region.zeros 1) (.ascii "g1") 1 :=
  (acceptsHex_iff (Region.zeros 1) (.ascii "g1") 1 (by decide) (by decide)).mpr
    (.inr ⟨0, by decide, by decide⟩)

theorem not_acceptsHex_1g : ¬AcceptsHex (Region.zeros 1) (.ascii "1g") 1 := by
  rintro ⟨r, p', hResult, hIff, -, -⟩
  have hRead : hex2bin (Region.zeros 1) (.ascii "1g") 1 = some (0, ⟨[1], rfl⟩) := by decide
  obtain ⟨rfl, -⟩ := Prod.mk.inj (Option.some.inj (hResult.symm.trans hRead))
  have hLetter := hIff.mp rfl 103 (by decide)
  cases hLetter

/-! ## hex_to_bin -/

/-- The indices that are read of `hex_str`, and the indices and bytes that are written to
`bin_str`. -/
structure Accesses where
  reads : List Nat
  writes : List (Nat × Byte)

def hexToBinTurn (hexStr : Nat → Byte) (done : Accesses) (i : Nat) : Accesses where
  reads := done.reads ++ [i, i + 1]
  writes := done.writes ++ [(i / 2, BitVec.ofInt 8 (strtolHex [hexStr i, hexStr (i + 1)]))]

/-- `for (i = 0; i < hex_len; i += 2)`, on memory that begins at `hex_str` -/
def hexToBinAccesses (hexStr : Nat → Byte) (hexLen : Nat) : Accesses :=
  (List.range' 0 ((hexLen + 1) / 2) 2).foldl (hexToBinTurn hexStr) ⟨[], []⟩

/-- For a key of `n` bytes: the text and its NUL are read, and the bytes of the key are written. -/
def StaysInBuffers (n : Nat) (accesses : Accesses) : Prop :=
  (∀ i ∈ accesses.reads, i ≤ 2 * n) ∧ accesses.writes.map Prod.fst = List.range n

def decodedByte (hexStr : Nat → Byte) (i : Nat) : Byte :=
  BitVec.ofInt 8 (strtolHex [hexStr (2 * i), hexStr (2 * i + 1)])

theorem foldl_hexToBinTurn (hexStr : Nat → Byte) (turns : Nat) :
    (List.range' 0 turns 2).foldl (hexToBinTurn hexStr) ⟨[], []⟩ =
      ⟨(List.range turns).flatMap fun i => [2 * i, 2 * i + 1],
        (List.range turns).map fun i => (i, decodedByte hexStr i)⟩ := by
  induction turns with
  | zero => rfl
  | succ turns ih =>
    have hHalf : 2 * turns / 2 = turns := Nat.mul_div_cancel_left turns (by decide)
    rw [List.range'_concat, List.foldl_append, ih, Nat.zero_add, List.range_succ,
      List.flatMap_append, List.map_append]
    simp only [List.foldl_cons, List.foldl_nil, hexToBinTurn, hHalf, List.flatMap_singleton,
      List.map_singleton, decodedByte]

theorem writes_hexToBinAccesses (hex : List Byte) (hexLen : Nat) :
    (hexToBinAccesses (fun i => hex.getD i 0) hexLen).writes.map Prod.snd = hexToBin hex hexLen := by
  rw [hexToBinAccesses, foldl_hexToBinTurn, List.map_map]
  rfl

theorem hexToBinAccesses_terminated (hexStr : Nat → Byte) (n : Nat) :
    (hexToBinAccesses hexStr (2 * n + 1)).writes.map Prod.fst = List.range (n + 1) ∧
      2 * n + 1 ∈ (hexToBinAccesses hexStr (2 * n + 1)).reads := by
  have hTurns : (2 * n + 1 + 1) / 2 = n + 1 := by omega
  rw [hexToBinAccesses, foldl_hexToBinTurn, hTurns]
  constructor
  · rw [List.map_map]
    exact List.map_id _
  · exact List.mem_flatMap.mpr ⟨n, List.self_mem_range_succ, by simp⟩

/-- No key is decoded inside its buffers. -/
theorem not_staysInBuffers (n : Nat) (hexStr : Nat → Byte) :
    ¬StaysInBuffers n (hexToBinAccesses hexStr (2 * n + 1)) := by
  rintro ⟨-, hWrites⟩
  rw [(hexToBinAccesses_terminated hexStr n).1] at hWrites
  have hLength := congrArg List.length hWrites
  rw [List.length_range, List.length_range] at hLength
  omega

def zeroDigits (n i : Nat) : Byte := if i < 2 * n then 48 else 0

theorem not_staysInBuffers_privateKey :
    ¬StaysInBuffers 2528 (hexToBinAccesses (zeroDigits 2528) 5057) := by
  rintro ⟨hReads, -⟩
  have hBehind := hReads _ (hexToBinAccesses_terminated (zeroDigits 2528) 2528).2
  omega

end Manhattan.Chain
