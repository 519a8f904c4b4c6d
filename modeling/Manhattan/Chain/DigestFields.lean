import Manhattan.Chain.CreateTransaction
import Manhattan.Chain.Exhaustion
import Manhattan.Chain.HexText

/-! # The texts of a digest in their fields

The 96 digits of a digest are written into `block_hash_hex[128]`, `previous_hash[96]` and
`txid[96]`, each time with the NUL that ends them.
-/

namespace Manhattan.Chain

open Library.CStrings

/-- Where the texts of `sprintf(array + i * 2, "%02x", hash[i])` go, for the 48 bytes of a hash. -/
def digitWrites (digits : Byte → CString) (d : Digest) : List (Nat × CString) :=
  (List.range 48).map fun i => (2 * i, digits (d.bytes.getD i 0))

/-- `hash_block` prints a `char`. -/
def signedDigits (c : Byte) : CString := hex02 (c.signExtend 32).toNat

/-- `get_txid` prints an `unsigned char`. -/
def unsignedDigits (c : Byte) : CString := hex02 c.toNat

def Inside (capacity : Nat) (writes : List (Nat × CString)) : Prop :=
  ∀ w ∈ writes, w.1 + w.2.length < capacity

/-- The fields have room for the texts, and `previous_hash` reads the same after `hash_block`. -/
structure FitsFields (d : Digest) : Prop where
  blockHashHex : Inside 128 (digitWrites signedDigits d)
  previousHash : Inside 96 [(0, hexText d.bytes)]
  txid : Inside 96 (digitWrites unsignedDigits d)
  reread : ∀ sha384 sqlite call rows b b', getPreviousHash sqlite rows = some (hexText d.bytes) →
    newBlock sqlite call rows = some b → hashBlock sha384 b = some b' →
      b'.previousHash = b.previousHash

/-! ## The writes -/

theorem mem_digitWrites {digits : Byte → CString} {d : Digest} {w : Nat × CString} :
    w ∈ digitWrites digits d ↔ ∃ i < 48, (2 * i, digits (d.bytes.getD i 0)) = w := by
  simp only [digitWrites, List.mem_map, List.mem_range]

theorem hexStep_eq {arrays : Arrays} {d : Digest} (hHash : hashOf arrays = d.bytes) {i : Nat}
    (hi : i < 48) : ∃ w ∈ digitWrites signedDigits d,
      hexStep arrays i = arrays.strcpy (At.blockHashHex + w.1) w.2 := by
  refine ⟨_, mem_digitWrites.mpr ⟨i, hi, rfl⟩, ?_⟩
  rw [← hHash, getD_hashOf arrays hi]
  rfl

theorem chars_getTxid (sha3 : Hash) (image : NewTransaction → List Byte) (t : NewTransaction) :
    (getTxid sha3 image t).chars =
      (digitWrites unsignedDigits (sha3 (image t))).flatMap fun w => w.2.chars := by
  generalize hDigest : sha3 (image t) = d
  have hBytes : (List.range 48).map (fun i => d.bytes.getD i 0) = d.bytes := by
    apply List.ext_getElem
    · rw [List.length_map, List.length_range, d.length_bytes]
    · intro i _ hi
      rw [List.getElem_map, List.getElem_range, List.getD_eq_getElem?_getD,
        List.getElem?_eq_getElem hi, Option.getD_some]
  have hText : (getTxid sha3 image t).chars = d.bytes.flatMap hexByte := by
    rw [← hDigest]
    rfl
  rw [hText, digitWrites, List.flatMap_map]
  conv => lhs; rw [← hBytes, List.flatMap_map]
  rfl

theorem inside_blockHashHex (d : Digest) : Inside 128 (digitWrites signedDigits d) := by
  intro w hw
  obtain ⟨i, hi, rfl⟩ := mem_digitWrites.mp hw
  have hLength := length_hexStep_le (d.bytes.getD i 0)
  change 2 * i + (hex02 _).length < 128
  omega

theorem not_inside_previousHash (d : Digest) : ¬Inside 96 [(0, hexText d.bytes)] := by
  intro h
  have hFits := h _ List.mem_cons_self
  have hLength := le_length_hexText d.bytes
  change 0 + (hexText d.bytes).length < 96 at hFits
  omega

theorem not_inside_txid (d : Digest) : ¬Inside 96 (digitWrites unsignedDigits d) := by
  intro h
  have hFits := h _ (mem_digitWrites.mpr ⟨47, by decide, rfl⟩)
  have hLength := two_le_length_hex02 (d.bytes.getD 47 0).toNat
  change 2 * 47 + (hex02 _).length < 96 at hFits
  omega

/-! ## previous_hash after hash_block -/

theorem length_printed : ∀ b : Byte, (printed b).length = if b < 128 then 2 else 8 := by
  decide +kernel

theorem length_hexText (d : Digest) :
    (hexText d.bytes).length = 94 + if d.last < 128 then 2 else 8 := by
  have hTake : (d.bytes.take 47).length = 47 :=
    List.length_take_of_le (by rw [d.length_bytes]; decide)
  have hShown : ((d.bytes.take 47).flatMap shown).length = 94 := by
    rw [List.length_flatMap, List.map_congr_left fun b _ => length_shown b, List.map_const', hTake]
    rfl
  rw [CString.length, chars_hexText, List.length_append, hShown, length_printed]

theorem newBlock_previousHash {sqlite : Sqlite} {call : Call} {rows : List Row} {b : Block}
    {p : CString} (hNewest : getPreviousHash sqlite rows = some p)
    (h : newBlock sqlite call rows = some b) : b.previousHash = some p := by
  obtain ⟨pool, _, h⟩ := Option.bind_eq_some_iff.mp h
  obtain ⟨arrays, _, h⟩ := Option.bind_eq_some_iff.mp h
  obtain ⟨previousHash, hPrevious, h⟩ := Option.bind_eq_some_iff.mp h
  obtain rfl := Option.some.inj (hPrevious.symm.trans hNewest)
  obtain ⟨arrays', hCopy, h⟩ := Option.bind_eq_some_iff.mp h
  obtain rfl := Option.some.inj h
  exact Region.string_strcpy hCopy

/-- A mined hash starts with a NUL, which ends the text behind its 96 digits. The last six of a
longer one are lost. -/
theorem reread_iff {sha384 : Hash} {sqlite : Sqlite} {call : Call} {rows : List Row} {b b' : Block}
    {d : Digest} (hNewest : getPreviousHash sqlite rows = some (hexText d.bytes))
    (hNew : newBlock sqlite call rows = some b) (hHash : hashBlock sha384 b = some b') :
    b'.previousHash = b.previousHash ↔ d.last < 128 ∨ b.search sha384 = some none := by
  have hPrevious := newBlock_previousHash hNewest hNew
  have hLength := length_hexText d
  obtain ⟨first, hFirst, hRest⟩ := Option.bind_eq_some_iff.mp hHash
  obtain ⟨found, hFound, _⟩ := Option.bind_eq_some_iff.mp hRest
  rw [hPrevious, hFound]
  cases found with
  | none =>
    obtain ⟨left, hLeft, hExhausted⟩ := hashBlock_exhausted hFirst hFound
    obtain rfl := Option.some.inj (hLeft.symm.trans hHash)
    have hShort : (hexText d.bytes).length < At.blockHashHex := by
      have hBound := length_hexText_le d.bytes
      simp only [At.blockHashHex]
      omega
    rw [hExhausted.previousHash hPrevious, Block.leftPrevious, if_pos hShort]
    simp
  | some pair =>
    obtain ⟨nonce, newHash⟩ := pair
    obtain ⟨sealed', hDone, hSealed⟩ := hashBlock_sealed hFirst hFound
    obtain rfl := Option.some.inj (hDone.symm.trans hHash)
    rw [hSealed.cutPrevious (Block.search_found hFound).2.1 hPrevious]
    constructor
    · intro h
      have hCut := CString.length_take_le At.blockHash (hexText d.bytes)
      rw [Option.some.inj h, hLength] at hCut
      split at hCut
      · rename_i hLast
        exact .inl hLast
      · exact absurd hCut (by decide)
    · rintro (hLast | hNone)
      · rw [if_pos hLast] at hLength
        rw [CString.take_of_length_le hLength.le]
      · cases hNone

/-- No digest fits: not into `previous_hash`, and not into `txid`. -/
theorem not_fitsFields (d : Digest) : ¬FitsFields d :=
  fun h => not_inside_previousHash d h.previousHash

theorem not_fitsFields_zeroDigest : ¬FitsFields zeroDigest :=
  fun h => not_inside_txid zeroDigest h.txid

end Manhattan.Chain
