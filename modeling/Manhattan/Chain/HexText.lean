import Manhattan.Chain.Preimage
import Manhattan.Chain.Transactions
import Manhattan.Chain.Validation
import Manhattan.Library.Separated

/-! # The text of a block hash

`hash_block` prints each byte of the hash as a signed `char`: from 0x80 on it prints eight
digits, and the next byte is printed over the last six of them. Only of the last byte all the
digits stay.
-/

namespace Manhattan.Chain

open Library.CStrings Library.Conversions Library.Separated

def printed (b : Byte) : List Byte := (hex02 (b.signExtend 32).toNat).chars

def shown (b : Byte) : List Byte := (printed b).take 2

def Digest.last (d : Digest) : Byte := d.bytes.getD 47 0

def Digest.hexDigits (d : Digest) : List Byte := d.bytes.flatMap hexByte

/-- Every byte before the last is below 0x80 or 0xff, and the last is below 0x80. -/
structure Digest.Readable (d : Digest) : Prop where
  bytes : ∀ b ∈ d.bytes.take 47, b < 128 ∨ b = 255
  last : d.last < 128

/-- The bytes agree, but those before the last may be any from 0x80 on. -/
structure Digest.Alike (d d' : Digest) : Prop where
  bytes : List.Forall₂ (fun b c => b = c ∨ 128 ≤ b ∧ 128 ≤ c) (d.bytes.take 47) (d'.bytes.take 47)
  last : d.last = d'.last

/-! ## One byte -/

theorem length_shown (b : Byte) : (shown b).length = 2 :=
  List.length_take_of_le (two_le_length_hex02 _)

theorem strtolHex_hexByte : ∀ b : Byte, BitVec.ofInt 8 (strtolHex (hexByte b)) = b := by
  decide +kernel

theorem strtolHex_printed : ∀ b : Byte, BitVec.ofInt 8 (strtolHex (printed b)) = b := by
  decide +kernel

theorem hexByte_injective : Function.Injective hexByte := by
  intro b c h
  rw [← strtolHex_hexByte b, h, strtolHex_hexByte]

theorem printed_injective : Function.Injective printed := by
  intro b c h
  rw [← strtolHex_printed b, h, strtolHex_printed]

theorem printed_eq_hexByte_iff : ∀ b : Byte, printed b = hexByte b ↔ b < 128 := by
  decide +kernel

theorem shown_eq : ∀ b : Byte, shown b = hexByte (if b < 128 then b else 255) := by
  decide +kernel

theorem shown_eq_hexByte_iff {b : Byte} : shown b = hexByte b ↔ b < 128 ∨ b = 255 := by
  rw [shown_eq, hexByte_injective.eq_iff]
  split <;> grind

theorem shown_eq_iff {b c : Byte} : shown b = shown c ↔ b = c ∨ 128 ≤ b ∧ 128 ≤ c := by
  rw [shown_eq, shown_eq, hexByte_injective.eq_iff]
  split <;> split <;> grind

/-! ## The text -/

theorem take_hexTextSteps {hash : List Byte} {n : Nat} (hn : n ≤ hash.length) :
    ((List.range n).foldl (hexTextStep hash) .empty).chars.take (2 * n) =
      (hash.take n).flatMap shown := by
  induction n with
  | zero => rfl
  | succ n ih =>
    have hInside : n < hash.length := hn
    have hByte : hash.getD n 0 = hash[n] := by
      rw [List.getD_eq_getElem?_getD, List.getElem?_eq_getElem hInside, Option.getD_some]
    rw [List.range_succ, List.foldl_append, List.foldl_cons, List.foldl_nil, hexTextStep, hByte,
      List.take_succ_eq_append_getElem hInside, List.flatMap_append, List.flatMap_singleton,
      ← ih (Nat.le_of_succ_le hn), Nat.mul_succ]
    generalize hText : (List.range n).foldl (hexTextStep hash) .empty = text
    have hBefore : (text.take (2 * n)).chars.length = 2 * n :=
      CString.length_take_of_le (hText ▸ le_length_hexTextSteps hash n)
    have hTake := @List.take_length_add_append _ (text.take (2 * n)).chars (printed hash[n]) 2
    rwa [hBefore] at hTake

theorem chars_hexText (d : Digest) :
    (hexText d.bytes).chars = (d.bytes.take 47).flatMap shown ++ printed d.last := by
  have hRange : List.range 48 = List.range 47 ++ [47] := List.range_succ
  rw [hexText, hRange, List.foldl_append, List.foldl_cons, List.foldl_nil, hexTextStep,
    CString.chars_append, CString.chars_take, take_hexTextSteps (by rw [d.length_bytes]; decide)]
  rfl

theorem Digest.bytes_eq (d : Digest) : d.bytes = d.bytes.take 47 ++ [d.last] := by
  have hInside : 47 < d.bytes.length := by
    rw [d.length_bytes]
    decide
  rw [last, List.getD_eq_getElem?_getD, List.getElem?_eq_getElem hInside, Option.getD_some,
    ← List.take_succ_eq_append_getElem hInside, List.take_of_length_le d.length_bytes.le]

theorem Digest.hexDigits_eq (d : Digest) :
    d.hexDigits = (d.bytes.take 47).flatMap hexByte ++ hexByte d.last := by
  rw [hexDigits]
  conv => lhs; rw [d.bytes_eq]
  rw [List.flatMap_append, List.flatMap_singleton]

theorem flatMap_eq_iff {α β : Type*} {f g : α → List β} {n : Nat} (hf : ∀ a, (f a).length = n)
    (hg : ∀ a, (g a).length = n) {xs ys : List α} (hLength : xs.length = ys.length) :
    xs.flatMap f = ys.flatMap g ↔ List.Forall₂ (fun x y => f x = g y) xs ys := by
  induction xs generalizing ys with
  | nil =>
    obtain rfl := List.length_eq_zero_iff.mp hLength.symm
    simp
  | cons x xs ih =>
    obtain ⟨y, ys, rfl⟩ := List.exists_cons_of_length_eq_add_one hLength.symm
    rw [List.flatMap_cons, List.flatMap_cons, List.forall₂_cons,
      ← ih (Nat.succ.inj hLength)]
    constructor
    · intro h
      exact List.append_inj h ((hf x).trans (hg y).symm)
    · rintro ⟨hHead, hTail⟩
      rw [hHead, hTail]

theorem hexDigits_injective : Function.Injective Digest.hexDigits := by
  rintro ⟨bytes, hLength⟩ ⟨bytes', hLength'⟩ h
  have hSame := (flatMap_eq_iff length_hexByte length_hexByte (hLength.trans hLength'.symm)).mp h
  simp only [hexByte_injective.eq_iff, List.forall₂_eq_eq_eq] at hSame
  simpa using hSame

theorem hexText_eq_hexDigits_iff (d : Digest) :
    (hexText d.bytes).chars = d.hexDigits ↔ d.Readable := by
  rw [chars_hexText, d.hexDigits_eq]
  have hSame := flatMap_eq_iff length_shown length_hexByte (rfl : (d.bytes.take 47).length = _)
  rw [List.forall₂_same] at hSame
  constructor
  · intro h
    obtain ⟨hBytes, hLast⟩ := List.append_inj h (by
      simp [List.length_flatMap, length_shown, length_hexByte])
    exact ⟨fun b hb => shown_eq_hexByte_iff.mp (hSame.mp hBytes b hb),
      (printed_eq_hexByte_iff _).mp hLast⟩
  · rintro ⟨hBytes, hLast⟩
    rw [hSame.mpr fun b hb => shown_eq_hexByte_iff.mpr (hBytes b hb),
      (printed_eq_hexByte_iff _).mpr hLast]

theorem hexText_eq_iff (d d' : Digest) : hexText d.bytes = hexText d'.bytes ↔ d.Alike d' := by
  rw [CString.ext_iff, chars_hexText, chars_hexText]
  have hLength : (d.bytes.take 47).length = (d'.bytes.take 47).length := by
    simp [d.length_bytes, d'.length_bytes]
  have hSame := flatMap_eq_iff length_shown length_shown hLength
  simp only [shown_eq_iff] at hSame
  constructor
  · intro h
    obtain ⟨hBytes, hLast⟩ := List.append_inj h (by
      simp [List.length_flatMap, length_shown, d.length_bytes, d'.length_bytes])
    exact ⟨hSame.mp hBytes, printed_injective hLast⟩
  · rintro ⟨hBytes, hLast⟩
    rw [hSame.mpr hBytes, hLast]

/-! ## hash_block -/

theorem Block.exists_first {b : Block} {capacity : Nat} {nonce : BitVec 32} {text : CString}
    (h : b.data capacity (some nonce) = some text) : ∃ first, b.data capacity none = some first := by
  obtain ⟨p, t, hPrevious, hBundle, hWhole⟩ := Block.prints_of_data h
  obtain ⟨whole, _, hFits⟩ := Option.bind_eq_some_iff.mp h
  have hLength : text.length < capacity := by
    unfold sprintf at hFits
    split at hFits
    · rwa [← Option.some.inj hFits]
    · cases hFits
  rw [hWhole] at hLength
  simp only [CString.length_append] at hLength
  simp only [Block.data, Block.print, hPrevious, hBundle, Option.bind_eq_bind, Option.bind_some,
    Option.pure_def]
  refine ⟨_, sprintf_of_lt ?_⟩
  simp only [CString.length_append]
  omega

theorem exists_hashBlock {sha384 : Hash} {b : Block} {nonce : BitVec 32} {newHash : Digest}
    (h : b.search sha384 = some (some (nonce, newHash))) :
    ∃ b', hashBlock sha384 b = some b' ∧ b'.blockHashHex = some (hexText newHash.bytes) := by
  obtain ⟨⟨data, hData, _⟩, _⟩ := Block.search_found h
  obtain ⟨first, hFirst⟩ := Block.exists_first hData
  obtain ⟨b', hHash, hSealed⟩ := hashBlock_sealed hFirst h
  exact ⟨b', hHash, hSealed.hex⟩

/-- For the hash that ends the search, `block_hash_hex` is its 96 digits if and only if it is
readable, and two blocks get one text if and only if their hashes are alike. -/
theorem block_hash_hex_iff (sha384 : Hash) (b c : Block) (nonce nonce' : BitVec 32)
    (newHash newHash' : Digest) (h : b.search sha384 = some (some (nonce, newHash)))
    (h' : c.search sha384 = some (some (nonce', newHash'))) :
    ∃ b' c' text text', hashBlock sha384 b = some b' ∧ hashBlock sha384 c = some c' ∧
      b'.blockHashHex = some text ∧ c'.blockHashHex = some text' ∧
      (text.chars = newHash.hexDigits ↔ newHash.Readable) ∧
      (text = text' ↔ newHash.Alike newHash') := by
  obtain ⟨b', hBlock, hText⟩ := exists_hashBlock h
  obtain ⟨c', hBlock', hText'⟩ := exists_hashBlock h'
  exact ⟨b', c', _, _, hBlock, hBlock', hText, hText', hexText_eq_hexDigits_iff newHash,
    hexText_eq_iff newHash newHash'⟩

/-! ## Two hashes with one text -/

def marked (b : Byte) : Digest := ⟨[0, 0, 0, b] ++ List.replicate 44 0, by simp⟩

/-- Three zeros, and the first digit of the index in a byte whose text does not show it. -/
def indexHash : Hash := fun data => marked (data.getD 0 0 ||| 128)

def numbered (blockIndex : BitVec 32) : Block := { zeroBlock with blockIndex := blockIndex }

theorem block_hash_hex_iff_numbered : ∃ b' c' text text',
    hashBlock indexHash (numbered 1) = some b' ∧ hashBlock indexHash (numbered 2) = some c' ∧
      b'.blockHashHex = some text ∧ c'.blockHashHex = some text' ∧
      (text.chars = (marked 177).hexDigits ↔ (marked 177).Readable) ∧
      (text = text' ↔ (marked 177).Alike (marked 178)) :=
  block_hash_hex_iff indexHash (numbered 1) (numbered 2) 0 0 (marked 177) (marked 178)
    (by decide +kernel) (by decide +kernel)

theorem block_hash_hex_shared : ∃ b' c' text,
    hashBlock indexHash (numbered 1) = some b' ∧ hashBlock indexHash (numbered 2) = some c' ∧
      b'.blockHash = (marked 177).bytes ∧ c'.blockHash = (marked 178).bytes ∧
      (marked 177).Mined ∧ (marked 178).Mined ∧ marked 177 ≠ marked 178 ∧
      b'.blockHashHex = some text ∧ c'.blockHashHex = some text ∧
      text.chars ≠ (marked 177).hexDigits ∧ text.chars ≠ (marked 178).hexDigits := by
  have hRun : (hashBlock indexHash (numbered 1)).any (fun b' : Block =>
      (hashBlock indexHash (numbered 2)).any fun c' : Block => b'.blockHashHex.any fun text =>
        decide (b'.blockHash = (marked 177).bytes ∧ c'.blockHash = (marked 178).bytes ∧
          (marked 177).Mined ∧ (marked 178).Mined ∧ marked 177 ≠ marked 178 ∧
          b'.blockHashHex = some text ∧ c'.blockHashHex = some text ∧
          text.chars ≠ (marked 177).hexDigits ∧ text.chars ≠ (marked 178).hexDigits)) = true := by
    decide +kernel
  obtain ⟨b', hBlock, hRun⟩ := (Option.any_eq_true _ _).mp hRun
  obtain ⟨c', hBlock', hRun⟩ := (Option.any_eq_true _ _).mp hRun
  obtain ⟨text, _, hRun⟩ := (Option.any_eq_true _ _).mp hRun
  exact ⟨b', c', text, hBlock, hBlock', of_decide_eq_true hRun⟩

end Manhattan.Chain
