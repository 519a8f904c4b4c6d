import Manhattan.Chain.Base58Decoding

/-! # Texts with a checksum

`b58check_enc` puts a version byte before the data and four bytes of a digest behind them.
`b58check` compares the digest of what was read, and counts the zeros in front again. Nothing in the
program sets the function that computes the digest; until it is set, both call a null pointer.
-/

namespace Manhattan.Chain

open Library.CStrings Library.Positional

structure Sha256Digest where
  bytes : List Byte
  length_bytes : bytes.length = 32
  deriving DecidableEq

/-- `b58_sha256_impl`: none where it returns `false` -/
abbrev Sha256 := List Byte → Option Sha256Digest

/-- `none` stands for the call of a null pointer, `some none` for `false`. -/
def myDblsha256 (b58Sha256Impl : Option Sha256) (data : List Byte) :
    Option (Option Sha256Digest) := do
  let sha256 ← b58Sha256Impl
  return sha256 data >>= fun buf => sha256 buf.bytes

/-- The loop over `binc` and `base58str` and the test behind it, none where it reads past either -/
def zerosAgree : List Byte → List Byte → Option Bool
  | 0 :: binc, 49 :: base58str => zerosAgree binc base58str
  | b :: _, c :: _ => some (b ≠ 0 ∧ c ≠ 49)
  | _, _ => none

/-- `bin` and `base58str` are what can be read there; `b58sz` is not used. -/
def b58check (b58Sha256Impl : Option Sha256) (bin : List Byte) (binsz : Nat)
    (base58str : List Byte) : Option Int := do
  if binsz < 4 then return -4
  if bin.length < binsz then none
  match ← myDblsha256 b58Sha256Impl (bin.take (binsz - 4)) with
  | none => return -2
  | some buf =>
    if (bin.drop (binsz - 4)).take 4 ≠ buf.bytes.take 4 then return -1
    if ¬(← zerosAgree bin base58str) then return -3
    return (bin.headD 0).toNat

/-- `written` is what is behind `b58c`, `b58sz` is `*b58c_sz`. -/
def b58checkEnc (b58Sha256Impl : Option Sha256) (b58cSz : Nat) (ver : Byte) (data : List Byte) :
    Option Encoding := do
  match ← myDblsha256 b58Sha256Impl (ver :: data) with
  | none => return ⟨false, 0, []⟩
  | some hash => return b58enc b58cSz (ver :: data ++ hash.bytes.take 4)

/-! ## The zeros in front -/

theorem zerosAgree_cons_of_ne {b c : Byte} (h : b ≠ 0 ∨ c ≠ 49) (binc base58str : List Byte) :
    zerosAgree (b :: binc) (c :: base58str) = some (decide (b ≠ 0 ∧ c ≠ 49)) := by
  rw [zerosAgree]
  intro hb hc
  exact h.elim (fun hNe => hNe hb) fun hNe => hNe hc

def zerosInFront (bin : List Byte) : Nat := (bin.takeWhile (· = 0)).length

theorem zerosInFront_cons (b : Byte) (bin : List Byte) :
    zerosInFront (b :: bin) = if b = 0 then zerosInFront bin + 1 else 0 := by
  rw [zerosInFront, List.takeWhile_cons]
  by_cases hb : b = 0 <;> simp only [hb, decide_true, decide_false, if_true, if_false,
    Bool.false_eq_true, List.length_cons, List.length_nil, zerosInFront]

theorem onesInFront_cons (c : Byte) (chars : List Byte) :
    onesInFront (c :: chars) = if c = 49 then onesInFront chars + 1 else 0 := by
  rw [onesInFront, List.takeWhile_cons]
  by_cases hc : c = 49 <;> simp only [hc, decide_true, decide_false, if_true, if_false,
    Bool.false_eq_true, List.length_cons, List.length_nil, onesInFront]

/-- The zeros in front of the bytes are compared with the ones in front of the text, unless neither
ends within the bytes. -/
theorem zerosAgree_eq (bin chars rest : List Byte) : zerosAgree bin (chars ++ 0 :: rest) =
    if zerosInFront bin = bin.length ∧ bin.length ≤ onesInFront chars then none
    else some (decide (zerosInFront bin = onesInFront chars)) := by
  induction bin generalizing chars with
  | nil => simp [zerosAgree, zerosInFront]
  | cons b bin ih =>
    cases chars with
    | nil =>
      have hNone : onesInFront [] = 0 := rfl
      rw [List.nil_append, zerosAgree_cons_of_ne (Or.inr (by decide)), zerosInFront_cons, hNone]
      by_cases hb : b = 0 <;> simp [hb]
    | cons c chars =>
      rw [List.cons_append, zerosInFront_cons, onesInFront_cons, List.length_cons]
      by_cases hAgain : b = 0 ∧ c = 49
      · rw [if_pos hAgain.1, if_pos hAgain.2, hAgain.1, hAgain.2]
        change zerosAgree bin (chars ++ 0 :: rest) = _
        simp only [ih, Nat.add_right_cancel_iff, Nat.add_le_add_iff_right]
      · have hEnd : b ≠ 0 ∨ c ≠ 49 := not_and_or.mp hAgain
        rw [zerosAgree_cons_of_ne hEnd]
        by_cases hb : b = 0
        · have hc : c ≠ 49 := hEnd.resolve_left (not_not.mpr hb)
          rw [if_pos hb, if_neg hc, if_neg (by omega)]
          simp only [hb, ne_eq, not_true_eq_false, false_and, decide_false, Nat.add_eq_zero_iff,
            one_ne_zero, and_false]
        · rw [if_neg hb, if_neg (by omega)]
          refine congrArg some (decide_eq_decide.mpr ?_)
          split
          · rename_i hc
            exact iff_of_false (fun h => h.2 hc) (Nat.succ_ne_zero _).symm
          · rename_i hc
            exact iff_of_true ⟨hb, hc⟩ rfl

theorem zerosInFront_eq_length_iff (bin : List Byte) :
    zerosInFront bin = bin.length ↔ ∀ b ∈ bin, b = 0 := by
  induction bin with
  | nil => simp [zerosInFront]
  | cons b bin ih =>
    rw [zerosInFront_cons, List.length_cons, List.forall_mem_cons, ← ih]
    by_cases hb : b = 0 <;> simp only [hb, if_true, if_false, true_and, false_and,
      Nat.add_right_cancel_iff, iff_false]
    omega

/-! ## b58check -/

/-- The bytes that `b58check_enc` encodes -/
def checkedBytes (ver : Byte) (data : List Byte) (hash : Sha256Digest) : List Byte :=
  ver :: data ++ hash.bytes.take 4

theorem length_checkedBytes (ver : Byte) (data : List Byte) (hash : Sha256Digest) :
    (checkedBytes ver data hash).length = data.length + 5 := by
  simp [checkedBytes, hash.length_bytes]

theorem b58checkEnc_eq {b58Sha256Impl : Option Sha256} {b58cSz : Nat} {ver : Byte}
    {data : List Byte} {e : Encoding} (h : b58checkEnc b58Sha256Impl b58cSz ver data = some e)
    (hReturned : e.returned = true) : ∃ hash, myDblsha256 b58Sha256Impl (ver :: data) =
      some (some hash) ∧ e = b58enc b58cSz (checkedBytes ver data hash) := by
  obtain ⟨result, hResult, hEnc⟩ := Option.bind_eq_some_iff.mp h
  cases result with
  | none =>
    cases hEnc
    cases hReturned
  | some hash => exact ⟨hash, hResult, (Option.some.inj hEnc).symm⟩

theorem b58check_eq {b58Sha256Impl : Option Sha256} {bin base58str : List Byte} {binsz : Nat}
    (hSize : 4 ≤ binsz) (hBin : bin.length = binsz) {hash : Sha256Digest}
    (hHash : myDblsha256 b58Sha256Impl (bin.take (binsz - 4)) = some (some hash)) :
    b58check b58Sha256Impl bin binsz base58str =
      if bin.drop (binsz - 4) ≠ hash.bytes.take 4 then some (-1)
      else zerosAgree bin base58str >>= fun agree =>
        some (if agree then ((bin.headD 0).toNat : Int) else -3) := by
  have hLast : (bin.drop (binsz - 4)).take 4 = bin.drop (binsz - 4) := by
    refine List.take_of_length_le ?_
    rw [List.length_drop]
    omega
  unfold b58check
  rw [if_neg (by omega : ¬binsz < 4), if_neg (by omega : ¬bin.length < binsz), hHash, hLast]
  simp only [Option.bind_eq_bind, Option.bind_some]
  split
  · rfl
  · cases zerosAgree bin base58str with
    | none => rfl
    | some agree => cases agree <;> rfl

theorem b58check_base58Text {b58Sha256Impl : Option Sha256} {ver : Byte} {data : List Byte}
    {hash : Sha256Digest} (hHash : myDblsha256 b58Sha256Impl (ver :: data) = some (some hash))
    (rest : List Byte) : b58check b58Sha256Impl (checkedBytes ver data hash) (data.length + 5)
      (base58Text (checkedBytes ver data hash) ++ 0 :: rest) =
      if ∀ b ∈ checkedBytes ver data hash, b = 0 then none else some (ver.toNat : Int) := by
  have hLength := length_checkedBytes ver data hash
  have hFront : (checkedBytes ver data hash).take (data.length + 5 - 4) = ver :: data :=
    List.take_left' rfl
  have hBack : (checkedBytes ver data hash).drop (data.length + 5 - 4) = hash.bytes.take 4 :=
    List.drop_left' rfl
  have hOnes : onesInFront (base58Text (checkedBytes ver data hash)) =
      zerosInFront (checkedBytes ver data hash) := onesInFront_base58Text _
  rw [b58check_eq (by omega) hLength (hFront.symm ▸ hHash), hBack, if_neg (not_not.mpr rfl),
    zerosAgree_eq, hOnes]
  by_cases hZero : ∀ b ∈ checkedBytes ver data hash, b = 0
  · have hAll := (zerosInFront_eq_length_iff _).mpr hZero
    rw [if_pos ⟨hAll, hAll.ge⟩, if_pos hZero]
    rfl
  · have hSome : zerosInFront (checkedBytes ver data hash) ≠ (checkedBytes ver data hash).length :=
      fun h => hZero ((zerosInFront_eq_length_iff _).mp h)
    rw [if_neg fun h => hSome h.1, if_neg hZero]
    simp [checkedBytes]

/-- A text with a checksum is read as the version byte and the data, and passes the check with its
version, unless there are only zeros: then the check reads past the bytes. -/
theorem b58check_b58checkEnc {b58Sha256Impl : Option Sha256} {capacity : Nat} {ver : Byte}
    {data : List Byte} {e : Encoding} (h : b58checkEnc b58Sha256Impl capacity ver data = some e)
    (hReturned : e.returned = true) (hLength : data.length + 5 < 2 ^ 32) :
    ∃ bin, b58tobin (data.length + 5) e.written 0 = some ⟨true, data.length + 5, bin⟩ ∧
      bin.take (data.length + 1) = ver :: data ∧
      b58check b58Sha256Impl bin (data.length + 5) e.written =
        if ∀ b ∈ bin, b = 0 then none else some (ver.toNat : Int) := by
  obtain ⟨hash, hHash, rfl⟩ := b58checkEnc_eq h hReturned
  have hBytes := length_checkedBytes ver data hash
  have hZeros : ((checkedBytes ver data hash).takeWhile (· = 0)).length < 2 ^ 32 :=
    (((List.takeWhile_sublist _).length_le).trans hBytes.le).trans_lt hLength
  have hRoom := bigEndian_lt (checkedBytes ver data hash)
  have hRun := b58tobin_b58enc (by omega : 0 < data.length + 5) hReturned hZeros (Or.inl rfl)
  rw [hBytes] at hRoom hRun
  rw [if_pos hRoom, List.drop_left' List.length_replicate] at hRun
  refine ⟨checkedBytes ver data hash, hRun, List.take_left' rfl, ?_⟩
  rw [(b58enc_returned hReturned).2]
  exact b58check_base58Text hHash []

/-- SHA-256 of a zero byte, and of that digest -/
def zeroByteDigest : Sha256Digest :=
  ⟨[110, 52, 11, 156, 255, 179, 122, 152, 156, 165, 68, 230, 187, 120, 10, 44, 120, 144, 29, 63,
    179, 55, 56, 118, 133, 17, 163, 6, 23, 175, 160, 29], rfl⟩

def zeroByteTwice : Sha256Digest :=
  ⟨[20, 6, 224, 88, 129, 226, 153, 54, 119, 102, 211, 19, 226, 108, 5, 86, 78, 201, 27, 247, 33,
    211, 23, 38, 189, 110, 70, 230, 6, 137, 83, 154], rfl⟩

def knownSha256 : Sha256 := fun data =>
  if data = [0] then some zeroByteDigest
  else if data = zeroByteDigest.bytes then some zeroByteTwice else none

theorem b58check_b58checkEnc_version : ∃ bin,
    b58tobin 5 [49, 87, 104, 52, 98, 104, 0] 0 = some ⟨true, 5, bin⟩ ∧ bin.take 1 = [0] ∧
      b58check (some knownSha256) bin 5 [49, 87, 104, 52, 98, 104, 0] =
        if ∀ b ∈ bin, b = 0 then none else some ((0 : Byte).toNat : Int) :=
  b58check_b58checkEnc (show b58checkEnc (some knownSha256) 69 0 [] =
    some ⟨true, 7, [49, 87, 104, 52, 98, 104, 0]⟩ from rfl) rfl (by decide)

theorem exists_hash_of_accepted {b58Sha256Impl : Option Sha256} {bin base58str : List Byte}
    {binsz : Nat} (hSize : 5 ≤ binsz) (hBin : bin.length = binsz) {r : Int}
    (h : b58check b58Sha256Impl bin binsz base58str = some r) (hr : 0 ≤ r) :
    ∃ ver data hash, data.length + 5 = binsz ∧ bin = checkedBytes ver data hash ∧
      myDblsha256 b58Sha256Impl (ver :: data) = some (some hash) := by
  obtain ⟨ver, data, hFront⟩ := List.exists_cons_of_length_pos
    (by rw [List.length_take]; omega : 0 < (bin.take (binsz - 4)).length)
  have hCount : data.length + 5 = binsz := by
    have hTake := congrArg List.length hFront
    rw [List.length_take, List.length_cons] at hTake
    omega
  cases hHash : myDblsha256 b58Sha256Impl (ver :: data) with
  | none =>
    rw [b58check, if_neg (by omega), if_neg (by omega), hFront, hHash] at h
    cases h
  | some result =>
    cases result with
    | none =>
      rw [b58check, if_neg (by omega), if_neg (by omega), hFront, hHash] at h
      cases h
      omega
    | some hash =>
      rw [b58check_eq (by omega) hBin (hFront.symm ▸ hHash)] at h
      split at h
      · cases h
        omega
      · rename_i hSame
        refine ⟨ver, data, hash, hCount, ?_, hHash⟩
        rw [checkedBytes, ← not_not.mp hSame, ← hFront, List.take_append_drop]

/-- What passes the check is what is written with a checksum. -/
theorem b58check_accepts_iff {b58Sha256Impl : Option Sha256} {b58 bin : List Byte} {text : CString}
    {binsz capacity : Nat} (hSize : 5 ≤ binsz) (hText : scan b58 = some text)
    (hRun : b58tobin binsz b58 0 = some ⟨true, binsz, bin⟩) (hOnes : onesInFront text.chars < 2 ^ 32)
    (hCapacity : text.length < capacity) :
    (∃ r, 0 ≤ r ∧ b58check b58Sha256Impl bin binsz b58 = some r) ↔
      (∃ ver data, b58checkEnc b58Sha256Impl capacity ver data =
        some ⟨true, text.length + 1, text.chars ++ [0]⟩) ∧ ∃ b ∈ bin, b ≠ 0 := by
  have hDecoded := b58enc_b58tobin (by omega) (by rw [givenText, if_pos rfl, hText]; rfl) hRun rfl
    hOnes (Nat.le_refl binsz) hCapacity
  rw [Nat.sub_self, List.drop_zero] at hDecoded
  have hBin : base58Text bin = text.chars := by
    have hWritten := (b58enc_returned (congrArg Encoding.returned hDecoded)).2
    rw [hDecoded] at hWritten
    exact (List.append_cancel_right hWritten).symm
  obtain ⟨rest, rfl⟩ := exists_of_scan hText
  constructor
  · rintro ⟨r, hr, hCheck⟩
    obtain ⟨ver, data, hash, rfl, rfl, hHash⟩ := exists_hash_of_accepted hSize
      (length_of_b58tobin hRun) hCheck hr
    refine ⟨⟨ver, data, ?_⟩, ?_⟩
    · rw [b58checkEnc, hHash]
      exact congrArg some hDecoded
    · by_contra hNone
      have hZero : ∀ b ∈ checkedBytes ver data hash, b = 0 := by
        intro b hb
        by_contra hNe
        exact hNone ⟨b, hb, hNe⟩
      rw [← hBin, b58check_base58Text hHash, if_pos hZero] at hCheck
      cases hCheck
  · rintro ⟨⟨ver, data, hEnc⟩, b, hb, hNe⟩
    obtain ⟨hash, hHash, hSame⟩ := b58checkEnc_eq hEnc rfl
    have hText' := (b58enc_returned (congrArg Encoding.returned hSame.symm)).2
    rw [← hSame] at hText'
    obtain rfl := base58Text_injective (hBin.trans (List.append_cancel_right hText'))
    obtain rfl : data.length + 5 = binsz := by
      rw [← length_of_b58tobin hRun, length_checkedBytes]
    refine ⟨ver.toNat, Int.natCast_nonneg _, ?_⟩
    rw [← hBin, b58check_base58Text hHash, if_neg fun hZero => hNe (hZero b hb)]

theorem b58check_accepts_version :
    (∃ r, 0 ≤ r ∧ b58check (some knownSha256) [0, 20, 6, 224, 88] 5
      [49, 87, 104, 52, 98, 104, 0] = some r) ↔
      (∃ ver data, b58checkEnc (some knownSha256) 69 ver data =
        some ⟨true, 7, [49, 87, 104, 52, 98, 104] ++ [0]⟩) ∧ ∃ b ∈ [0, 20, 6, 224, 88], b ≠ (0 : Byte) :=
  b58check_accepts_iff (by decide)
    (show scan _ = some ⟨[49, 87, 104, 52, 98, 104], by decide⟩ from rfl) rfl (by decide)
    (by decide)

end Manhattan.Chain
