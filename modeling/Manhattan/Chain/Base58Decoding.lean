import Manhattan.Chain.Base58
import Manhattan.Library.Limbs

/-! # Texts in base58 read back

`b58tobin` multiplies the number it has read by 58 for each character, in words of 32 bits, and
refuses a number that needs more bytes than the buffer has. The text that `b58enc` writes is the
only one it reads as the bytes that were encoded.
-/

namespace Manhattan.Chain

open Library.CStrings Library.Positional Library.Limbs

/-! ## b58tobin -/

def b58digitsMap : List Int := [
  -1, -1, -1, -1, -1, -1, -1, -1, -1, -1, -1, -1, -1, -1, -1, -1,
  -1, -1, -1, -1, -1, -1, -1, -1, -1, -1, -1, -1, -1, -1, -1, -1,
  -1, -1, -1, -1, -1, -1, -1, -1, -1, -1, -1, -1, -1, -1, -1, -1,
  -1,  0,  1,  2,  3,  4,  5,  6,  7,  8, -1, -1, -1, -1, -1, -1,
  -1,  9, 10, 11, 12, 13, 14, 15, 16, -1, 17, 18, 19, 20, 21, -1,
  22, 23, 24, 25, 26, 27, 28, 29, 30, 31, 32, -1, -1, -1, -1, -1,
  -1, 33, 34, 35, 36, 37, 38, 39, 40, 41, 42, 43, -1, 44, 45, 46,
  47, 48, 49, 50, 51, 52, 53, 54, 55, 56, 57, -1, -1, -1, -1, -1]

/-- The first `c` of a character, none for an invalid digit -/
def readDigit (b : Byte) : Option (BitVec 32) :=
  if b &&& 0x80 ≠ 0 then none
  else if b58digitsMap.getD b.toNat 0 = -1 then none
  else some (BitVec.ofInt 32 (b58digitsMap.getD b.toNat 0))

def zeromask (binsz : Nat) : BitVec 32 :=
  if binsz % 4 ≠ 0 then BitVec.allOnes 32 <<< (binsz % 4 * 8) else 0

/-- A round of the loop over the characters; none where it returns `false`. -/
def addDigit (zeromask : BitVec 32) (outi : List (BitVec 32)) (b : Byte) :
    Option (List (BitVec 32)) := do
  let c ← readDigit b
  let (outi, c) := mulAdd 58 c outi
  if c ≠ 0 then none
  else if outi.headD 0 &&& zeromask ≠ 0 then none
  else return outi

/-- What `b58tobin` returns, `*binszp` behind the call, and what is written to `bin`. -/
structure Decoding where
  returned : Bool
  binsz : Nat
  written : List Byte
  deriving DecidableEq

/-- The characters that are read: a size of 0 stands for `strlen(b58)`. -/
def givenText (b58 : List Byte) (b58sz : Nat) : Option (List Byte) :=
  if b58sz = 0 then (scan b58).map CString.chars
  else if b58sz ≤ b58.length then some (b58.take b58sz) else none

/-- The first word gives the bytes that are left over. -/
def outputBytes (binsz : Nat) (outi : List (BitVec 32)) : List Byte :=
  let bytesleft := binsz % 4
  if bytesleft ≠ 0 then
    bytesOf (outi.headD 0) bytesleft ++ (outi.drop 1).flatMap (bytesOf · 4)
  else outi.flatMap (bytesOf · 4)

def b58tobin (binsz : Nat) (b58 : List Byte) (b58sz : Nat) : Option Decoding := do
  let outisz := (binsz + 4 - 1) / 4
  -- an array has at least one word
  if outisz = 0 then none
  let chars ← givenText b58 b58sz
  let i := (chars.takeWhile (· = 49)).length
  let zerocount := i % 2 ^ 32
  match (chars.drop i).foldlM (addDigit (zeromask binsz)) (List.replicate outisz 0) with
  | none => return ⟨false, binsz, []⟩
  | some outi =>
    let written := outputBytes binsz outi
    return ⟨true, binsz - (written.takeWhile (· = 0)).length + zerocount, written⟩

example : b58tobin 4 ((CString.ascii "115Q").chars ++ [0]) 0 = some ⟨true, 3, [0, 0, 0, 255]⟩ := by
  decide +kernel

/-! ## Characters -/

theorem readDigit_b58digit : ∀ d < 58, readDigit (b58digit d) = some (BitVec.ofNat 32 d) := by
  unfold b58digit
  rw [b58digitsOrdered, CString.ascii_ofList]
  decide +kernel

theorem readDigit_ofNat : ∀ n < 256, (readDigit (BitVec.ofNat 8 n)).all fun c =>
    c.toNat < 58 ∧ b58digit c.toNat = BitVec.ofNat 8 n := by
  unfold b58digit
  rw [b58digitsOrdered, CString.ascii_ofList]
  decide +kernel

theorem readDigit_eq_some {b : Byte} {c : BitVec 32} (h : readDigit b = some c) :
    c.toNat < 58 ∧ b58digit c.toNat = b := by
  have hByte : BitVec.ofNat 8 b.toNat = b := BitVec.eq_of_toNat_eq (by simp)
  have hRead := readDigit_ofNat b.toNat b.isLt
  rw [hByte, h] at hRead
  exact of_decide_eq_true hRead

/-- `digits` are the digits of the number that the characters show. -/
structure Spells (digits : List Nat) (chars : List Byte) : Prop where
  lt : ∀ d ∈ digits, d < 58
  chars : chars = digits.map b58digit

theorem Spells.unique {digits digits' : List Nat} {chars : List Byte} (h : Spells digits chars)
    (h' : Spells digits' chars) : digits = digits' :=
  map_b58digit_inj h.lt h'.lt (h.chars.symm.trans h'.chars)

theorem spells_base58Text (bin : List Byte) :
    Spells (List.replicate (bin.takeWhile (· = 0)).length 0 ++
      (Nat.digits 58 (bigEndian bin)).reverse) (base58Text bin) :=
  ⟨base58_digits_lt bin, base58Text_eq_map bin⟩

/-! ## Rounds -/

/-- The words hold `n`, for which the buffer has room. -/
structure HoldsNumber (binsz n : Nat) (outi : List (BitVec 32)) : Prop where
  length : outi.length = (binsz + 4 - 1) / 4
  value : value (2 ^ 32) (toNats outi) = n
  room : n < 256 ^ binsz

theorem exists_words {binsz : Nat} (hSize : 0 < binsz) {outi : List (BitVec 32)}
    (hLength : outi.length = (binsz + 4 - 1) / 4) : ∃ word words, outi = word :: words :=
  List.exists_cons_of_length_pos (by omega)

theorem pow_words (n : Nat) : (2 ^ 32) ^ n = 256 ^ (4 * n) := by
  rw [pow_mul]
  norm_num

theorem zeromask_iff {binsz : Nat} (hSize : 0 < binsz) {outi : List (BitVec 32)}
    (hLength : outi.length = (binsz + 4 - 1) / 4) :
    outi.headD 0 &&& zeromask binsz = 0 ↔ value (2 ^ 32) (toNats outi) < 256 ^ binsz := by
  obtain ⟨word, words, rfl⟩ := exists_words hSize hLength
  rw [List.length_cons] at hLength
  rw [List.headD_cons, zeromask]
  by_cases hLeft : binsz % 4 = 0
  · have hValue := value_toNats_lt (word :: words) (by decide : 0 < 32)
    have hAll : 4 * (word :: words).length = binsz := by
      rw [List.length_cons]
      omega
    rw [pow_words, hAll] at hValue
    rw [if_neg (not_not.mpr hLeft)]
    exact iff_of_true BitVec.and_zero hValue
  · have hFirst : 256 ^ binsz = (2 ^ 32) ^ (toNats words).length * 2 ^ (binsz % 4 * 8) := by
      have hBytes : 2 ^ (binsz % 4 * 8) = 256 ^ (binsz % 4) := by
        rw [Nat.mul_comm, pow_mul]
        norm_num
      rw [length_toNats, pow_words, hBytes, ← pow_add]
      congr 1
      omega
    rw [if_pos hLeft, and_mask_eq_zero_iff, hFirst]
    exact (value_lt_iff (by decide) (fun d hd => toNats_lt hd) word.toNat _).symm

theorem addDigit_eq {b : Byte} {c : BitVec 32} (hRead : readDigit b = some c)
    (zeromask : BitVec 32) (outi : List (BitVec 32)) : addDigit zeromask outi b =
      if (mulAdd 58 c outi).2 = 0 ∧ (mulAdd 58 c outi).1.headD 0 &&& zeromask = 0 then
        some (mulAdd 58 c outi).1 else none := by
  rw [addDigit, hRead]
  simp only [Option.bind_eq_bind, Option.bind_some, ite_and, ne_eq, ite_not]
  rfl

theorem product_fits_iff {binsz n : Nat} (hSize : 0 < binsz) {outi : List (BitVec 32)}
    (hOuti : HoldsNumber binsz n outi) (c : BitVec 32) :
    ((mulAdd 58 c outi).2 = 0 ∧ (mulAdd 58 c outi).1.headD 0 &&& zeromask binsz = 0) ↔
      58 * n + c.toNat < 256 ^ binsz := by
  have hProduct := value_mulAdd (by decide : (58#(32 + 32)).toNat < 2 ^ 32) c outi
  have hFactor : (58#(32 + 32)).toNat = 58 := rfl
  rw [hOuti.value, hFactor] at hProduct
  rw [zeromask_iff hSize ((length_mulAdd 58 c outi).trans hOuti.length), ← hProduct]
  constructor
  · rintro ⟨hCarry, hValue⟩
    have hNone : (mulAdd 58#(32 + 32) c outi).2.toNat = 0 := congrArg BitVec.toNat hCarry
    rwa [hNone, Nat.mul_zero, Nat.add_zero]
  · intro hRoom
    refine ⟨?_, (Nat.le_add_right _ _).trans_lt hRoom⟩
    by_contra hCarry
    have hPositive : 0 < (mulAdd 58#(32 + 32) c outi).2.toNat :=
      Nat.pos_of_ne_zero fun hZero => hCarry (BitVec.eq_of_toNat_eq hZero)
    have hMany := Nat.le_mul_of_pos_right ((2 ^ 32) ^ outi.length) hPositive
    have hAll : 256 ^ binsz ≤ (2 ^ 32) ^ outi.length := by
      rw [pow_words, hOuti.length]
      exact Nat.pow_le_pow_right (by decide) (by omega)
    omega

theorem addDigit_of_readDigit {binsz n : Nat} (hSize : 0 < binsz) {outi : List (BitVec 32)}
    (hOuti : HoldsNumber binsz n outi) {b : Byte} {c : BitVec 32} (hRead : readDigit b = some c) :
    addDigit (zeromask binsz) outi b =
      if 58 * n + c.toNat < 256 ^ binsz then some (mulAdd 58 c outi).1 else none := by
  rw [addDigit_eq hRead]
  exact if_congr (product_fits_iff hSize hOuti c) rfl rfl

theorem HoldsNumber.mulAdd {binsz n : Nat} (hSize : 0 < binsz) {outi : List (BitVec 32)}
    (hOuti : HoldsNumber binsz n outi) {c : BitVec 32} (hRoom : 58 * n + c.toNat < 256 ^ binsz) :
    HoldsNumber binsz (58 * n + c.toNat) (mulAdd 58 c outi).1 := by
  have hProduct := value_mulAdd (by decide : (58#(32 + 32)).toNat < 2 ^ 32) c outi
  have hFactor : (58#(32 + 32)).toNat = 58 := rfl
  have hCarry := ((product_fits_iff hSize hOuti c).mpr hRoom).1
  have hNone : (Library.Limbs.mulAdd 58#(32 + 32) c outi).2.toNat = 0 :=
    congrArg BitVec.toNat hCarry
  rw [hOuti.value, hFactor, hNone, Nat.mul_zero, Nat.add_zero] at hProduct
  exact ⟨(length_mulAdd _ c outi).trans hOuti.length, hProduct, hRoom⟩

/-- Behind `n`, the digits `digits` -/
def appended (n : Nat) (digits : List Nat) : Nat := 58 ^ digits.length * n + value 58 digits

theorem appended_cons (n d : Nat) (digits : List Nat) :
    appended n (d :: digits) = appended (58 * n + d) digits := by
  rw [appended, appended, value_cons, List.length_cons, pow_succ]
  ring

theorem le_appended (n : Nat) (digits : List Nat) : n ≤ appended n digits :=
  (Nat.le_mul_of_pos_left n (Nat.pow_pos (by decide))).trans (Nat.le_add_right _ _)

theorem foldlM_addDigit {binsz n : Nat} (hSize : 0 < binsz) {outi : List (BitVec 32)}
    (hOuti : HoldsNumber binsz n outi) {digits : List Nat} (hDigits : ∀ d ∈ digits, d < 58)
    (hRoom : appended n digits < 256 ^ binsz) :
    ∃ outi', (digits.map b58digit).foldlM (addDigit (zeromask binsz)) outi = some outi' ∧
      HoldsNumber binsz (appended n digits) outi' := by
  induction digits generalizing n outi with
  | nil => exact ⟨outi, rfl, by simpa [appended, value] using hOuti⟩
  | cons d digits ih =>
    have hd : d < 58 := hDigits d List.mem_cons_self
    have hWord : (BitVec.ofNat 32 d).toNat = d := Nat.mod_eq_of_lt (hd.trans (by decide))
    have hNext := addDigit_of_readDigit hSize hOuti (readDigit_b58digit d hd)
    rw [appended_cons] at hRoom ⊢
    have hFits : 58 * n + (BitVec.ofNat 32 d).toNat < 256 ^ binsz := by
      rw [hWord]
      exact (le_appended _ digits).trans_lt hRoom
    have hHolds := hOuti.mulAdd hSize hFits
    rw [hWord] at hHolds
    obtain ⟨outi', hFold, hHolds'⟩ := ih hHolds (fun e he => hDigits e (List.mem_cons_of_mem d he))
      hRoom
    refine ⟨outi', ?_, hHolds'⟩
    rw [List.map_cons, List.foldlM_cons, hNext, if_pos hFits]
    exact hFold

theorem exists_digits_of_foldlM {binsz n : Nat} (hSize : 0 < binsz) {outi outi' : List (BitVec 32)}
    (hOuti : HoldsNumber binsz n outi) {chars : List Byte}
    (h : chars.foldlM (addDigit (zeromask binsz)) outi = some outi') :
    ∃ digits, Spells digits chars ∧ HoldsNumber binsz (appended n digits) outi' := by
  induction chars generalizing n outi with
  | nil =>
    cases h
    exact ⟨[], ⟨by simp, rfl⟩, by simpa [appended, value] using hOuti⟩
  | cons b chars ih =>
    rw [List.foldlM_cons] at h
    obtain ⟨next, hNext, hRest⟩ := Option.bind_eq_some_iff.mp h
    obtain ⟨c, hRead, -⟩ := Option.bind_eq_some_iff.mp hNext
    rw [addDigit_of_readDigit hSize hOuti hRead] at hNext
    obtain ⟨hFits, hWords⟩ := Option.ite_none_right_eq_some.mp hNext
    cases hWords
    obtain ⟨digits, hSpells, hHolds⟩ := ih (hOuti.mulAdd hSize hFits) hRest
    obtain ⟨hDigit, hChar⟩ := readDigit_eq_some hRead
    refine ⟨c.toNat :: digits, ⟨?_, ?_⟩, appended_cons n c.toNat digits ▸ hHolds⟩
    · intro d hd
      obtain rfl | hOther := List.mem_cons.mp hd
      · exact hDigit
      · exact hSpells.lt d hOther
    · rw [List.map_cons, hChar, ← hSpells.chars]

/-! ## What is written -/

theorem length_flatMap_bytesOf (words : List (BitVec 32)) :
    (words.flatMap (bytesOf · 4)).length = 4 * words.length := by
  simp [List.length_flatMap, length_bytesOf, Nat.mul_comm]

theorem HoldsNumber.outputBytes {binsz n : Nat} (hSize : 0 < binsz) {outi : List (BitVec 32)}
    (hOuti : HoldsNumber binsz n outi) :
    (outputBytes binsz outi).length = binsz ∧ bigEndian (outputBytes binsz outi) = n := by
  have hLength := hOuti.length
  have hValue := hOuti.value
  obtain ⟨word, words, rfl⟩ := exists_words hSize hLength
  rw [List.length_cons] at hLength
  rw [Chain.outputBytes]
  by_cases hLeft : binsz % 4 = 0
  · rw [if_neg (not_not.mpr hLeft), length_flatMap_bytesOf, bigEndian,
      value_flatMap_bytesOf (by norm_num), hValue, List.length_cons]
    exact ⟨by omega, rfl⟩
  · have hMask := (zeromask_iff hSize hOuti.length).mpr (hValue ▸ hOuti.room)
    rw [List.headD_cons, zeromask, if_pos hLeft, and_mask_eq_zero_iff, Nat.mul_comm, pow_mul]
      at hMask
    have hWord : word.toNat % 256 ^ (binsz % 4) = word.toNat :=
      Nat.mod_eq_of_lt (by simpa using hMask)
    rw [if_pos hLeft, List.headD_cons, List.drop_one, List.tail_cons, List.length_append,
      length_bytesOf, length_flatMap_bytesOf, bigEndian, List.map_append, value_append,
      value_bytesOf, hWord, value_flatMap_bytesOf (by norm_num), List.length_map,
      length_flatMap_bytesOf, ← pow_words, ← hValue, toNats, toNats, List.map_cons, value_cons,
      List.length_map]
    exact ⟨by omega, rfl⟩

theorem length_significant (bin : List Byte) :
    bin.length - (bin.takeWhile (· = 0)).length = (Nat.digits 256 (bigEndian bin)).length := by
  have hDigits := dropWhile_eq_digits (by decide : 1 < 256) fun d hd => @toNat_lt_of_mem bin d hd
  have hMap : (bin.map BitVec.toNat).dropWhile (· = 0) =
      (bin.dropWhile (· = 0)).map BitVec.toNat := by
    rw [List.dropWhile_map]
    congr 2
    funext b
    exact decide_eq_decide.mpr ⟨fun h => BitVec.eq_of_toNat_eq h, fun h => congrArg BitVec.toNat h⟩
  have hCount := congrArg List.length hDigits
  rw [hMap, List.length_map, List.length_reverse] at hCount
  have hSplit := length_takeWhile_add bin
  rw [bigEndian, ← hCount]
  omega

theorem holdsNumber_zero {binsz : Nat} :
    HoldsNumber binsz 0 (List.replicate ((binsz + 4 - 1) / 4) 0) where
  length := List.length_replicate
  value := by
    rw [toNats, List.map_replicate]
    exact value_replicate _
  room := Nat.pow_pos (by decide)

/-! ## The ones in front -/

theorem b58digit_zero : b58digit 0 = 49 := by
  rw [b58digit, b58digitsOrdered, CString.ascii_ofList]
  rfl

theorem Spells.split {digits : List Nat} {chars : List Byte} (h : Spells digits chars) :
    ∃ rest, Spells rest (chars.drop (chars.takeWhile (· = 49)).length) ∧
      digits = List.replicate (chars.takeWhile (· = 49)).length 0 ++ rest := by
  refine ⟨digits.drop (chars.takeWhile (· = 49)).length, ⟨?_, ?_⟩, ?_⟩
  · intro d hd
    exact h.lt d (List.mem_of_mem_drop hd)
  · rw [List.map_drop, ← h.chars]
  · have hFront : digits.take (chars.takeWhile (· = 49)).length =
        List.replicate (chars.takeWhile (· = 49)).length 0 := by
      refine map_b58digit_inj (fun d hd => h.lt d (List.mem_of_mem_take hd))
        (fun d hd => by rw [List.eq_of_mem_replicate hd]; decide) ?_
      have hOnes : chars.takeWhile (· = 49) =
          List.replicate (chars.takeWhile (· = 49)).length 49 := by
        refine List.eq_replicate_of_mem fun b hb => ?_
        simpa using List.mem_takeWhile_imp hb
      rw [List.map_take, ← h.chars, List.map_replicate, b58digit_zero, ← hOnes]
      exact (List.prefix_iff_eq_take.mp (List.takeWhile_prefix _)).symm
    rw [← hFront, List.take_append_drop]

theorem Spells.ones {rest : List Nat} {chars : List Byte}
    (h : Spells rest (chars.drop (chars.takeWhile (· = 49)).length)) :
    Spells (List.replicate (chars.takeWhile (· = 49)).length 0 ++ rest) chars := by
  refine ⟨?_, ?_⟩
  · intro d hd
    obtain hZero | hRest := List.mem_append.mp hd
    · rw [List.eq_of_mem_replicate hZero]
      decide
    · exact h.lt d hRest
  · rw [List.map_append, List.map_replicate, b58digit_zero, ← h.chars, drop_length_takeWhile,
      replicate_append_dropWhile]

/-! ## What b58tobin does -/

def onesInFront (chars : List Byte) : Nat := (chars.takeWhile (· = 49)).length

/-- `n` in a buffer of `binsz` bytes, behind `ones` zeros that the text shows -/
structure Decodes (binsz n ones : Nat) (d : Decoding) : Prop where
  returned : d.returned = true
  length : d.written.length = binsz
  value : bigEndian d.written = n
  binsz : d.binsz = (Nat.digits 256 n).length + ones % 2 ^ 32

theorem b58tobin_eq {binsz b58sz : Nat} (hSize : 0 < binsz) {b58 chars : List Byte}
    (hText : givenText b58 b58sz = some chars) : b58tobin binsz b58 b58sz =
      match (chars.drop (onesInFront chars)).foldlM (addDigit (zeromask binsz))
        (List.replicate ((binsz + 4 - 1) / 4) 0) with
      | none => some ⟨false, binsz, []⟩
      | some outi => some ⟨true, binsz - ((outputBytes binsz outi).takeWhile (· = 0)).length +
          onesInFront chars % 2 ^ 32, outputBytes binsz outi⟩ := by
  have hWords : (binsz + 4 - 1) / 4 ≠ 0 := by omega
  unfold b58tobin
  simp only [if_neg hWords, hText, Option.bind_eq_bind, Option.bind_some, onesInFront]
  rfl

theorem appended_zero (digits : List Nat) : appended 0 digits = value 58 digits := by
  rw [appended, Nat.mul_zero, Nat.zero_add]

theorem value_zeros_append (n : Nat) (digits : List Nat) :
    value 58 (List.replicate n 0 ++ digits) = value 58 digits := by
  rw [value_append, value_replicate, Nat.mul_zero, Nat.zero_add]

theorem exists_decoding {binsz b58sz : Nat} (hSize : 0 < binsz) {b58 chars : List Byte}
    (hText : givenText b58 b58sz = some chars) {digits : List Nat} (hSpells : Spells digits chars)
    (hRoom : value 58 digits < 256 ^ binsz) : ∃ d, b58tobin binsz b58 b58sz = some d ∧
      Decodes binsz (value 58 digits) (onesInFront chars) d := by
  obtain ⟨rest, hRest, rfl⟩ := hSpells.split
  rw [value_zeros_append] at hRoom ⊢
  obtain ⟨outi, hFold, hHolds⟩ := foldlM_addDigit hSize holdsNumber_zero hRest.lt
    ((appended_zero rest).symm ▸ hRoom)
  rw [← hRest.chars] at hFold
  rw [appended_zero] at hHolds
  obtain ⟨hLength, hValue⟩ := hHolds.outputBytes hSize
  have hCount := length_significant (outputBytes binsz outi)
  rw [hLength, hValue] at hCount
  have hRun := b58tobin_eq hSize hText
  rw [onesInFront, hFold] at hRun
  refine ⟨_, hRun, rfl, hLength, hValue, ?_⟩
  rw [← hCount]
  rfl

theorem not_decoding {binsz b58sz : Nat} (hSize : 0 < binsz) {b58 chars : List Byte}
    (hText : givenText b58 b58sz = some chars)
    (hNone : ¬∃ digits, Spells digits chars ∧ value 58 digits < 256 ^ binsz) :
    b58tobin binsz b58 b58sz = some ⟨false, binsz, []⟩ := by
  rw [b58tobin_eq hSize hText]
  split
  · rfl
  · rename_i outi hFold
    obtain ⟨rest, hRest, hHolds⟩ := exists_digits_of_foldlM hSize holdsNumber_zero hFold
    refine absurd ⟨_, hRest.ones, ?_⟩ hNone
    rw [value_zeros_append, ← appended_zero]
    exact hHolds.room

/-- A text is read if and only if its characters are digits and the number fits; what is refused
leaves the buffer and the size as they were. -/
theorem b58tobin_reads {binsz b58sz : Nat} (hSize : 0 < binsz) {b58 chars : List Byte}
    (hText : givenText b58 b58sz = some chars) :
    ∃ d, b58tobin binsz b58 b58sz = some d ∧
      (d.returned = true ↔ ∃ digits, Spells digits chars ∧ value 58 digits < 256 ^ binsz) ∧
      (∀ digits, Spells digits chars → d.returned = true →
        Decodes binsz (value 58 digits) (onesInFront chars) d) ∧
      (d.returned = false → d = ⟨false, binsz, []⟩) := by
  by_cases hRead : ∃ digits, Spells digits chars ∧ value 58 digits < 256 ^ binsz
  · obtain ⟨digits, hSpells, hRoom⟩ := hRead
    obtain ⟨d, hRun, hDecodes⟩ := exists_decoding hSize hText hSpells hRoom
    refine ⟨d, hRun, iff_of_true hDecodes.returned ⟨digits, hSpells, hRoom⟩, ?_, ?_⟩
    · intro digits' hSpells' _
      rwa [hSpells'.unique hSpells]
    · intro hFalse
      rw [hDecodes.returned] at hFalse
      cases hFalse
  · refine ⟨_, not_decoding hSize hText hRead, iff_of_false Bool.false_ne_true hRead, ?_, ?_⟩
    · intro _ _ hTrue
      cases hTrue
    · intro _
      rfl

theorem b58tobin_reads_zeros : ∃ d, b58tobin 4 [49, 49, 53, 81, 0] 0 = some d ∧
    (d.returned = true ↔
      ∃ digits, Spells digits [49, 49, 53, 81] ∧ value 58 digits < 256 ^ 4) ∧
    (∀ digits, Spells digits [49, 49, 53, 81] → d.returned = true →
      Decodes 4 (value 58 digits) (onesInFront [49, 49, 53, 81]) d) ∧
    (d.returned = false → d = ⟨false, 4, []⟩) :=
  b58tobin_reads (by decide) rfl

/-! ## Round trips -/

/-- The characters of a text are settled by its number and the ones in front. -/
theorem Spells.chars_eq {digits : List Nat} {chars : List Byte} (h : Spells digits chars) :
    chars = List.replicate (onesInFront chars) 49 ++
      (Nat.digits 58 (value 58 digits)).reverse.map b58digit := by
  obtain ⟨rest, hRest, rfl⟩ := h.split
  have hHead : rest.dropWhile (· = 0) = rest := by
    cases rest with
    | nil => rfl
    | cons d rest =>
      have hd : d ≠ 0 := by
        rintro rfl
        have hNonempty : chars.dropWhile (· = 49) ≠ [] := by
          rw [← drop_length_takeWhile, hRest.chars]
          exact List.cons_ne_nil _ _
        have hFirst := List.head_dropWhile_not (fun b : Byte => decide (b = 49)) hNonempty
        simp only [← drop_length_takeWhile, hRest.chars, List.map_cons, List.head_cons,
          b58digit_zero, decide_true, Bool.true_eq_false] at hFirst
      simp [hd]
  have hDigits := dropWhile_eq_digits (by decide : 1 < 58) hRest.lt
  rw [hHead] at hDigits
  rw [value_zeros_append, ← hDigits, ← hRest.chars, onesInFront, drop_length_takeWhile,
    replicate_append_dropWhile]

theorem onesInFront_base58Text (bin : List Byte) :
    onesInFront (base58Text bin) = (bin.takeWhile (· = 0)).length := by
  have hDigit : ∀ d < 58, d ≠ 0 → b58digit d ≠ 49 := by
    intro d hd hZero hOne
    exact hZero (b58digit_injOn d hd 0 (by decide) (hOne.trans b58digit_zero.symm))
  have hRest : ((Nat.digits 58 (bigEndian bin)).reverse.map b58digit).takeWhile (· = 49) = [] := by
    cases hDigits : (Nat.digits 58 (bigEndian bin)).reverse with
    | nil => rfl
    | cons d rest =>
      have hNonempty : Nat.digits 58 (bigEndian bin) ≠ [] := by
        intro hEmpty
        rw [hEmpty] at hDigits
        cases hDigits
      have hLast : (Nat.digits 58 (bigEndian bin)).getLast hNonempty = d := by
        rw [← List.head_reverse (by rwa [ne_eq, List.reverse_eq_nil_iff])]
        simp only [hDigits, List.head_cons]
      have hNumber : bigEndian bin ≠ 0 := fun hZero => hNonempty (by rw [hZero, Nat.digits_zero])
      have hd : d ≠ 0 := hLast ▸ Nat.getLast_digit_ne_zero 58 hNumber
      have hLt : d < 58 := Nat.digits_lt_base (by decide)
        (List.mem_reverse.mp (hDigits ▸ List.mem_cons_self) : d ∈ Nat.digits 58 (bigEndian bin))
      rw [List.map_cons, List.takeWhile_cons_of_neg]
      simpa using hDigit d hLt hd
  rw [onesInFront, base58Text, List.takeWhile_append_of_pos, hRest, List.append_nil,
    List.length_replicate]
  intro b hb
  simpa using List.eq_of_mem_replicate hb

theorem eq_of_bigEndian {bin bin' : List Byte} (hLength : bin.length = bin'.length)
    (h : bigEndian bin = bigEndian bin') : bin = bin' := by
  have hSame := Nat.ofDigits_inj_of_len_eq (by decide : 1 < 256)
    (by simp only [List.length_reverse, List.length_map, hLength])
    (fun b hb => toNat_lt_of_mem (List.mem_reverse.mp hb))
    (fun b hb => toNat_lt_of_mem (List.mem_reverse.mp hb)) h
  exact List.map_injective_iff.mpr (fun _ _ => BitVec.eq_of_toNat_eq)
    (List.reverse_injective hSame)

theorem base58Text_injective : Function.Injective base58Text := by
  intro bin bin' h
  have hNumber := bigEndian_eq_of_text h
  have hOnes := congrArg onesInFront h
  rw [onesInFront_base58Text, onesInFront_base58Text] at hOnes
  have hSignificant := length_significant bin
  rw [hNumber, ← length_significant] at hSignificant
  have hFront := length_takeWhile_add bin
  have hFront' := length_takeWhile_add bin'
  exact eq_of_bigEndian (by omega) hNumber

theorem bigEndian_drop (k : Nat) (bin : List Byte) :
    bigEndian (bin.drop k) = bigEndian bin % 256 ^ (bin.length - k) := by
  have hSplit : bigEndian bin =
      256 ^ (bin.drop k).length * bigEndian (bin.take k) + bigEndian (bin.drop k) := by
    conv => lhs; rw [← List.take_append_drop k bin]
    rw [bigEndian, List.map_append, value_append, List.length_map]
    rfl
  have hLt := bigEndian_lt (bin.drop k)
  rw [hSplit, List.length_drop, Nat.mul_add_mod]
  rw [List.length_drop] at hLt
  exact (Nat.mod_eq_of_lt hLt).symm

theorem givenText_base58Text (bin : List Byte) {b58sz : Nat}
    (hSize : b58sz = 0 ∨ b58sz = (base58Text bin).length) :
    givenText (base58Text bin ++ [0]) b58sz = some (base58Text bin) := by
  have hScan : scan (base58Text bin ++ [0]) = some (base58 bin) := scan_terminated (base58 bin) []
  obtain rfl | hEmpty := Nat.eq_zero_or_pos b58sz
  · rw [givenText, if_pos rfl, hScan]
    rfl
  · obtain rfl := hSize.resolve_left hEmpty.ne'
    have hInside : (base58Text bin).length ≤ (base58Text bin ++ [0]).length := by simp
    rw [givenText, if_neg hEmpty.ne', if_pos hInside, List.take_left]

theorem b58enc_returned {capacity : Nat} {bin : List Byte}
    (h : (b58enc capacity bin).returned = true) :
    (b58enc capacity bin).b58sz = (base58Text bin).length + 1 ∧
      (b58enc capacity bin).written = base58Text bin ++ [0] := by
  rw [b58enc_eq] at h ⊢
  split at h
  · cases h
  · rename_i hRoom
    rw [if_neg hRoom]
    exact ⟨rfl, rfl⟩

theorem length_of_b58tobin {binsz b58sz n : Nat} {b58 written : List Byte}
    (h : b58tobin binsz b58 b58sz = some ⟨true, n, written⟩) : written.length = binsz := by
  obtain rfl | hSize := Nat.eq_zero_or_pos binsz
  · cases h
  · cases hText : givenText b58 b58sz with
    | none => simp [b58tobin, hText] at h
    | some chars =>
      obtain ⟨d, hRun, hIff, hDecodes, -⟩ := b58tobin_reads hSize hText
      obtain rfl := Option.some.inj (h.symm.trans hRun)
      obtain ⟨digits, hSpells, -⟩ := hIff.mp rfl
      exact (hDecodes digits hSpells rfl).length

/-- What was encoded is read back, behind zeros, into every buffer that its number fits in. -/
theorem b58tobin_b58enc {capacity binsz b58sz : Nat} {bin : List Byte} (hSize : 0 < binsz)
    (hEncoded : (b58enc capacity bin).returned = true)
    (hZeros : (bin.takeWhile (· = 0)).length < 2 ^ 32)
    (hB58sz : b58sz = 0 ∨ b58sz + 1 = (b58enc capacity bin).b58sz) :
    b58tobin binsz (b58enc capacity bin).written b58sz = some
      (if bigEndian bin < 256 ^ binsz then
        ⟨true, bin.length, (List.replicate binsz 0 ++ bin).drop bin.length⟩
      else ⟨false, binsz, []⟩) := by
  obtain ⟨hSizeWritten, hWritten⟩ := b58enc_returned hEncoded
  rw [hSizeWritten] at hB58sz
  rw [hWritten]
  have hText := givenText_base58Text bin (hB58sz.imp_right Nat.succ.inj)
  have hSpells := spells_base58Text bin
  have hValue : value 58 (List.replicate (bin.takeWhile (· = 0)).length 0 ++
      (Nat.digits 58 (bigEndian bin)).reverse) = bigEndian bin := by
    rw [value_zeros_append, value, List.reverse_reverse, Nat.ofDigits_digits]
  split
  · rename_i hRoom
    obtain ⟨⟨returned, size, written⟩, hRun, hReturned, hLength, hNumber, hCount⟩ :=
      exists_decoding hSize hText hSpells (hValue.symm ▸ hRoom)
    dsimp only at hReturned hLength hNumber hCount
    rw [hValue] at hNumber hCount
    have hWritten : written = (List.replicate binsz 0 ++ bin).drop bin.length := by
      refine eq_of_bigEndian (by simp [hLength]) ?_
      rw [hNumber, bigEndian_drop, bigEndian_append_zeros, List.length_append,
        List.length_replicate, Nat.add_sub_cancel, Nat.mod_eq_of_lt hRoom]
    have hAll : size = bin.length := by
      have hFront := length_takeWhile_add bin
      rw [hCount, onesInFront_base58Text, Nat.mod_eq_of_lt hZeros, ← length_significant]
      omega
    rw [hRun, hReturned, hWritten, hAll]
  · rename_i hRoom
    refine not_decoding hSize hText ?_
    rintro ⟨digits, hOther, hFits⟩
    rw [hOther.unique hSpells, hValue] at hFits
    exact hRoom hFits

theorem b58tobin_b58enc_zeros : b58tobin 4 (b58enc 69 [0, 0, 255]).written 0 = some
    (if bigEndian [0, 0, 255] < 256 ^ 4 then
      ⟨true, 3, (List.replicate 4 0 ++ [0, 0, 255]).drop 3⟩ else ⟨false, 4, []⟩) :=
  b58tobin_b58enc (by decide) rfl (by decide) (Or.inl rfl)

/-- The bytes that a text is read as are encoded as that text. -/
theorem b58enc_b58tobin {binsz b58sz capacity : Nat} {b58 chars : List Byte} {d : Decoding}
    (hSize : 0 < binsz) (hText : givenText b58 b58sz = some chars)
    (hRun : b58tobin binsz b58 b58sz = some d) (hReturned : d.returned = true)
    (hOnes : onesInFront chars < 2 ^ 32) (hFits : d.binsz ≤ binsz)
    (hCapacity : chars.length < capacity) :
    b58enc capacity (d.written.drop (binsz - d.binsz)) =
      ⟨true, chars.length + 1, chars ++ [0]⟩ := by
  obtain ⟨d', hRun', hIff, hDecodes, -⟩ := b58tobin_reads hSize hText
  obtain rfl := Option.some.inj (hRun.symm.trans hRun')
  obtain ⟨digits, hSpells, hRoom⟩ := hIff.mp hReturned
  obtain ⟨-, hLength, hValue, hCount⟩ := hDecodes digits hSpells hReturned
  rw [Nat.mod_eq_of_lt hOnes] at hCount
  have hNumber : bigEndian (d.written.drop (binsz - d.binsz)) = value 58 digits := by
    rw [bigEndian_drop, hLength, hValue, Nat.sub_sub_self hFits]
    refine Nat.mod_eq_of_lt (((Nat.digits_length_le_iff (by decide) _).mp ?_))
    omega
  have hZeros : ((d.written.drop (binsz - d.binsz)).takeWhile (· = 0)).length =
      onesInFront chars := by
    have hSignificant := length_significant (d.written.drop (binsz - d.binsz))
    have hFront := length_takeWhile_add (d.written.drop (binsz - d.binsz))
    have hRest : (d.written.drop (binsz - d.binsz)).length = d.binsz := by
      rw [List.length_drop, hLength]
      omega
    rw [hNumber] at hSignificant
    omega
  have hChars : base58Text (d.written.drop (binsz - d.binsz)) = chars := by
    rw [base58Text, hZeros, hNumber]
    exact hSpells.chars_eq.symm
  rw [b58enc_eq, hChars, if_neg (by omega)]

theorem b58enc_b58tobin_zeros : b58enc 5 ([0, 0, 0, 255].drop (4 - 3)) =
    ⟨true, 5, [49, 49, 53, 81] ++ [0]⟩ :=
  b58enc_b58tobin (d := ⟨true, 3, [0, 0, 0, 255]⟩) (by decide : 0 < 4)
    (rfl : givenText [49, 49, 53, 81, 0] 0 = some [49, 49, 53, 81]) rfl rfl (by decide) (by decide)
    (by decide)

end Manhattan.Chain
