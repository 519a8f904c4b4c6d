import Manhattan.Chain.Block
import Manhattan.Library.WordReadings

/-! # The miner and the validator agree

Storing the hash and its hexadecimal text leaves alone what `validate_block` prints, so it
rebuilds the very text whose hash ended the search.
-/

namespace Manhattan.Chain

open Library.CStrings Library.WordReadings

/-! ## The search -/

theorem leadingZeros_eq_iff {bytes : List Byte} {n : Nat} :
    leadingZeros bytes n = n ↔ bytes.take n = List.replicate n 0 := by
  induction n generalizing bytes with
  | zero =>
    cases bytes <;> simp [leadingZeros]
  | succ n ih =>
    cases bytes with
    | nil => simp [leadingZeros]
    | cons b bytes =>
      rw [leadingZeros]
      split
      · rename_i hb
        rw [Nat.add_right_cancel_iff, ih, List.take_succ_cons, List.replicate_succ, hb]
        simp
      · rename_i hb
        rw [List.take_succ_cons, List.replicate_succ]
        exact ⟨nofun, fun h => absurd (List.cons.inj h).1 hb⟩

def Digest.Mined (d : Digest) : Prop := d.bytes.take DIFFICULTY = List.replicate DIFFICULTY 0

instance (d : Digest) : Decidable d.Mined := inferInstanceAs (Decidable (_ = _))

theorem searchNonce_found {sha384 : Hash} {b : Block} {turns : Nat} {start nonce : BitVec 32}
    {newHash : Digest} (h : searchNonce sha384 b turns start = some (some (nonce, newHash))) :
    ∃ k < turns, nonce = start + BitVec.ofNat 32 k ∧
      (∃ data, b.data 129999 (some nonce) = some data ∧ sha384 data.chars = newHash) ∧
      newHash.Mined ∧
      ∀ j < k, ∃ data, b.data 129999 (some (start + BitVec.ofNat 32 j)) = some data ∧
        ¬(sha384 data.chars).Mined := by
  induction turns generalizing start with
  | zero => cases h
  | succ turns ih =>
    obtain ⟨data, hData, hRest⟩ := Option.bind_eq_some_iff.mp h
    dsimp only at hRest
    split at hRest
    · rename_i hZeros
      cases hRest
      refine ⟨0, Nat.zero_lt_succ _, by simp, ⟨data, hData, rfl⟩, leadingZeros_eq_iff.mp hZeros, ?_⟩
      intro j hj
      exact absurd hj (Nat.not_lt_zero _)
    · rename_i hZeros
      obtain ⟨k, hk, hNonce, hFound, hMined, hEarlier⟩ := ih hRest
      refine ⟨k + 1, Nat.succ_lt_succ hk, hNonce.trans (add_ofNat_succ start k).symm, hFound,
        hMined, ?_⟩
      intro j hj
      cases j with
      | zero =>
        refine ⟨data, ?_, fun h => hZeros (leadingZeros_eq_iff.mpr h)⟩
        simpa using hData
      | succ j =>
        rw [add_ofNat_succ]
        exact hEarlier j (Nat.lt_of_succ_lt_succ hj)

theorem Block.search_found {sha384 : Hash} {b : Block} {nonce : BitVec 32} {newHash : Digest}
    (h : b.search sha384 = some (some (nonce, newHash))) :
    (∃ data, b.data 129999 (some nonce) = some data ∧ sha384 data.chars = newHash) ∧
      newHash.Mined ∧
      ∀ k < nonce.toNat, ∃ data, b.data 129999 (some (BitVec.ofNat 32 k)) = some data ∧
        ¬(sha384 data.chars).Mined := by
  obtain ⟨k, hk, hNonce, hFound, hMined, hEarlier⟩ := searchNonce_found h
  have hNat : nonce.toNat = k := by
    rw [hNonce, zero_add, BitVec.toNat_ofNat, Nat.mod_eq_of_lt (by omega)]
  refine ⟨hFound, hMined, ?_⟩
  intro j hj
  have hData := hEarlier j (hNat ▸ hj)
  rwa [zero_add] at hData

/-! ## The hexadecimal text -/

def hexTextStep (hash : List Byte) (text : CString) (i : Nat) : CString :=
  text.take (2 * i) ++ hex02 ((hash.getD i 0).signExtend 32).toNat

def hexText (hash : List Byte) : CString := (List.range 48).foldl (hexTextStep hash) .empty

def hashOf (arrays : Arrays) : List Byte := (arrays.bytes.drop At.blockHash).take 48

theorem hashOf_eq (arrays : Arrays) :
    hashOf arrays = (arrays.bytes.take At.blockHashHex).drop At.blockHash := by
  rw [hashOf, List.take_drop]

theorem getD_hashOf (arrays : Arrays) {i : Nat} (hi : i < 48) :
    (hashOf arrays).getD i 0 = arrays.bytes.getD (At.blockHash + i) 0 := by
  simp [hashOf, List.getD_eq_getElem?_getD, hi]

theorem length_hexStep_le (c : Byte) : (hex02 (c.signExtend 32).toNat).length ≤ 8 :=
  length_hex02_le (by decide) (c.signExtend 32).isLt

/-- What a number of turns leave of the arrays: only `block_hash_hex` changes. -/
structure Framed (arrays arrays' : Arrays) : Prop where
  before : arrays'.bytes.take At.blockHashHex = arrays.bytes.take At.blockHashHex
  behind : arrays'.bytes.drop At.transactionBundle = arrays.bytes.drop At.transactionBundle

theorem Framed.hashOf {arrays arrays' : Arrays} (h : Framed arrays arrays') :
    hashOf arrays' = hashOf arrays := by rw [hashOf_eq, hashOf_eq, h.before]

theorem exists_hexStep (arrays : Arrays) {i : Nat} (hi : i < 48) :
    ∃ arrays', hexStep arrays i = some arrays' ∧ Framed arrays arrays' := by
  have hLength := length_hexStep_le (arrays.bytes.getD (At.blockHash + i) 0)
  obtain ⟨arrays', hStep⟩ : ∃ arrays', hexStep arrays i = some arrays' :=
    arrays.exists_strcpy _ _ (by simp only [At.blockHashHex]; omega)
  refine ⟨arrays', hStep, Region.take_strcpy hStep (Nat.le_add_right _ _), ?_⟩
  apply Region.drop_strcpy hStep
  simp only [At.blockHashHex, At.transactionBundle]
  omega

theorem hexSteps (n start : Nat) (hEnd : start + n ≤ 48) {arrays : Arrays} {text : CString}
    (hText : arrays.string At.blockHashHex = some text) (hLength : 2 * start ≤ text.length) :
    ∃ arrays', (List.range' start n).foldlM hexStep arrays = some arrays' ∧
      Framed arrays arrays' ∧ arrays'.string At.blockHashHex =
        some ((List.range' start n).foldl (hexTextStep (hashOf arrays)) text) := by
  induction n generalizing start arrays text with
  | zero => exact ⟨arrays, rfl, ⟨rfl, rfl⟩, hText⟩
  | succ n ih =>
    have hStart : start < 48 := by omega
    obtain ⟨next, hStep, hFramed⟩ := exists_hexStep arrays hStart
    have hNext : next.string At.blockHashHex = some (hexTextStep (hashOf arrays) text start) := by
      rw [hexTextStep, getD_hashOf arrays hStart]
      exact Region.string_strcpy_add hText hLength hStep
    have hNextLength : 2 * (start + 1) ≤ (hexTextStep (hashOf arrays) text start).length := by
      rw [hexTextStep, CString.length_append, CString.length_take_of_le hLength]
      exact Nat.add_le_add_left (two_le_length_hex02 _) _
    obtain ⟨last, hRest, hFramed', hLast⟩ := ih (start + 1) (by omega) hNext hNextLength
    rw [hFramed.hashOf] at hLast
    refine ⟨last, ?_, ⟨hFramed'.before.trans hFramed.before,
      hFramed'.behind.trans hFramed.behind⟩, hLast⟩
    rw [List.range'_succ, List.foldlM_cons, hStep]
    exact hRest

theorem hexLoop_framed (arrays : Arrays) :
    ∃ arrays', hexLoop arrays = some arrays' ∧ Framed arrays arrays' ∧
      arrays'.string At.blockHashHex = some (hexText (hashOf arrays)) := by
  have hRange : List.range 48 = 0 :: List.range' 1 47 := rfl
  obtain ⟨next, hStep, hFramed⟩ := exists_hexStep arrays (i := 0) (by decide)
  have hNext : next.string At.blockHashHex = some (hexTextStep (hashOf arrays) .empty 0) := by
    have hEmpty : ∀ s : CString, CString.empty.take 0 ++ s = s := fun _ => CString.ext rfl
    rw [hexStep] at hStep
    rw [hexTextStep, getD_hashOf arrays (by decide), hEmpty]
    exact Region.string_strcpy hStep
  have hLength : 2 * 1 ≤ (hexTextStep (hashOf arrays) .empty 0).length := two_le_length_hex02 _
  obtain ⟨last, hRest, hFramed', hLast⟩ := hexSteps 47 1 (by decide) hNext hLength
  rw [hFramed.hashOf] at hLast
  refine ⟨last, ?_, ⟨hFramed'.before.trans hFramed.before,
    hFramed'.behind.trans hFramed.behind⟩, ?_⟩
  · rw [hexLoop, hRange, List.foldlM_cons, hStep, Option.bind_eq_bind, Option.bind_some, hRest]
  · rw [hLast, hexText, hRange, List.foldl_cons]

theorem le_length_hexTextSteps (hash : List Byte) (n : Nat) :
    2 * n ≤ ((List.range n).foldl (hexTextStep hash) .empty).length := by
  induction n with
  | zero => exact Nat.zero_le _
  | succ n ih =>
    rw [List.range_succ, List.foldl_append, List.foldl_cons, List.foldl_nil, hexTextStep,
      CString.length_append, CString.length_take_of_le ih]
    exact Nat.add_le_add_left (two_le_length_hex02 _) _

theorem le_length_hexText (hash : List Byte) : 96 ≤ (hexText hash).length :=
  le_length_hexTextSteps hash 48

theorem length_hexText_le (hash : List Byte) : (hexText hash).length ≤ 102 := by
  have hRange : List.range 48 = List.range 47 ++ [47] := List.range_succ
  rw [hexText, hRange, List.foldl_append, List.foldl_cons, List.foldl_nil, hexTextStep,
    CString.length_append]
  exact Nat.add_le_add (CString.length_take_le (2 * 47) _) (length_hexStep_le _)

/-! ## What hash_block leaves -/

theorem Block.setHash_blockHash (b : Block) (newHash : Digest) :
    hashOf (b.setHash newHash).arrays = newHash.bytes := by
  rw [hashOf, setHash, Region.drop_write_self,
    List.take_append_of_le_length newHash.length_bytes.ge, ← newHash.length_bytes,
    List.take_length]

theorem Block.setHash_behind (b : Block) (newHash : Digest) :
    (b.setHash newHash).arrays.bytes.drop At.transactionBundle =
      b.arrays.bytes.drop At.transactionBundle := by
  rw [setHash, Region.drop_write (by rw [newHash.length_bytes]; decide)]

structure Block.Sealed (b : Block) (nonce : BitVec 32) (newHash : Digest) (b' : Block) : Prop where
  blockIndex : b'.blockIndex = b.blockIndex
  timestamp : b'.timestamp = b.timestamp
  transactionCount : b'.transactionCount = b.transactionCount
  nonce : b'.nonce = nonce
  blockHash : b'.blockHash = newHash.bytes
  arrays : b'.arrays.bytes.take At.blockHash = b.arrays.bytes.take At.blockHash
  bundle : b'.transactionBundle = b.transactionBundle
  hex : b'.blockHashHex = some (hexText newHash.bytes)

theorem hashBlock_sealed {sha384 : Hash} {b : Block} {nonce : BitVec 32} {newHash : Digest}
    {data : CString} (hFirst : b.data 129999 none = some data)
    (hFound : b.search sha384 = some (some (nonce, newHash))) :
    ∃ b', hashBlock sha384 b = some b' ∧ b.Sealed nonce newHash b' := by
  obtain ⟨arrays', hHex, hFramed, hText⟩ := hexLoop_framed (b.setHash newHash).arrays
  have hTake : (b.setHash newHash).arrays.bytes.take At.blockHash =
      b.arrays.bytes.take At.blockHash := by
    rw [Block.setHash, Region.take_write (Nat.le_refl _)]
  rw [b.setHash_blockHash] at hText
  refine ⟨{ b.setHash newHash with nonce := nonce, arrays := arrays' }, ?_, ?_⟩
  · simp only [hashBlock, hFirst, hFound, Option.bind_eq_bind, Option.bind_some, hHex]
    rfl
  · refine ⟨rfl, rfl, rfl, rfl, ?_, ?_, ?_, hText⟩
    · exact hFramed.hashOf.trans (b.setHash_blockHash newHash)
    · have hShort := congrArg (List.take At.blockHash) hFramed.before
      rw [List.take_take, List.take_take] at hShort
      exact hShort.trans hTake
    · exact congrArg scan (hFramed.behind.trans (b.setHash_behind newHash))

/-- Also where the search has run out of turns. -/
theorem hashBlock_keeps {sha384 : Hash} {b b' : Block} (h : hashBlock sha384 b = some b') :
    b'.transactionBundle = b.transactionBundle ∧ b'.transactionCount = b.transactionCount ∧
      ∃ hash, b'.blockHashHex = some (hexText hash) := by
  obtain ⟨_, _, h⟩ := Option.bind_eq_some_iff.mp h
  obtain ⟨found, _, h⟩ := Option.bind_eq_some_iff.mp h
  obtain ⟨arrays', hHex, h⟩ := Option.bind_eq_some_iff.mp h
  obtain rfl := Option.some.inj h
  rcases found with _ | ⟨nonce, newHash⟩
  · obtain ⟨arrays'', hHex', hFramed, hText⟩ := hexLoop_framed b.arrays
    obtain rfl := Option.some.inj (hHex.symm.trans hHex')
    exact ⟨congrArg scan hFramed.behind, rfl, _, hText⟩
  · obtain ⟨arrays'', hHex', hFramed, hText⟩ := hexLoop_framed (b.setHash newHash).arrays
    obtain rfl := Option.some.inj (hHex.symm.trans hHex')
    exact ⟨congrArg scan (hFramed.behind.trans (b.setHash_behind newHash)), rfl, _, hText⟩

/-- The search ends, with a nonce or without, and what follows it always comes through. -/
theorem exists_hashBlock_of_data (sha384 : Hash) {b : Block}
    (hData : ∀ nonce, ∃ data, b.data 129999 nonce = some data) :
    ∃ b', hashBlock sha384 b = some b' := by
  have hSearch : ∀ turns start, ∃ found, searchNonce sha384 b turns start = some found := by
    intro turns
    induction turns with
    | zero => exact fun _ => ⟨none, rfl⟩
    | succ turns ih =>
      intro start
      obtain ⟨data, hText⟩ := hData (some start)
      simp only [searchNonce, hText, Option.bind_eq_bind, Option.bind_some]
      split
      · exact ⟨_, rfl⟩
      · exact ih (start + 1)
  obtain ⟨data, hFirst⟩ := hData none
  obtain ⟨found, hFound⟩ := hSearch (2 ^ 32 - 1) 0
  cases found with
  | none =>
    obtain ⟨arrays', hHex, _⟩ := hexLoop_framed b.arrays
    simp only [hashBlock, hFirst, Block.search, hFound, hHex, Option.bind_eq_bind,
      Option.bind_some]
    exact ⟨_, rfl⟩
  | some pair =>
    obtain ⟨arrays', hHex, _⟩ := hexLoop_framed (b.setHash pair.2).arrays
    simp only [hashBlock, hFirst, Block.search, hFound, hHex, Option.bind_eq_bind,
      Option.bind_some]
    exact ⟨_, rfl⟩

/-! ## What both print -/

theorem Block.exists_data {b : Block} {previousHash bundle : CString}
    (hPrevious : b.previousHash = some previousHash) (hBundle : b.transactionBundle = some bundle)
    (hLength : previousHash.length + bundle.length < 29945) (nonce : Option (BitVec 32)) :
    ∃ text, b.print nonce = some text ∧
      ∀ capacity, 29999 ≤ capacity → b.data capacity nonce = some text := by
  have hPrint : ∃ text, b.print nonce = some text ∧ text.length < 29999 := by
    have hIndex := length_decimal32_le b.blockIndex
    have hTimestamp := length_decimal64_le b.timestamp
    have hCount := length_decimal32_le b.transactionCount
    simp only [print, hPrevious, hBundle, Option.bind_eq_bind, Option.bind_some]
    cases nonce with
    | none =>
      refine ⟨_, rfl, ?_⟩
      simp only [CString.length_append]
      omega
    | some nonce =>
      have hNonce := length_decimal32_le nonce
      refine ⟨_, rfl, ?_⟩
      simp only [CString.length_append]
      omega
  obtain ⟨text, hText, hFits⟩ := hPrint
  refine ⟨text, hText, ?_⟩
  intro capacity hCapacity
  rw [data, hText]
  exact sprintf_of_lt (by omega)

theorem Block.exists_data_of_inside {b : Block} (hPrevious : 0 ∈ b.arrays.bytes.take 96)
    (hBundle : 0 ∈ (b.arrays.bytes.drop 272).take 19999) (nonce : Option (BitVec 32)) :
    ∃ text, b.print nonce = some text ∧
      ∀ capacity, 29999 ≤ capacity → b.data capacity nonce = some text := by
  obtain ⟨previousHash, _, hPreviousHash, hPreviousLength⟩ := exists_scan_take hPrevious
  obtain ⟨bundle, _, hTransactionBundle, hBundleLength⟩ := exists_scan_take hBundle
  exact Block.exists_data hPreviousHash hTransactionBundle (by omega) nonce

theorem Block.Sealed.print {b b' : Block} {nonce : BitVec 32} {newHash : Digest}
    (h : b.Sealed nonce newHash b') (hPrevious : 0 ∈ b.arrays.bytes.take 96)
    (n : Option (BitVec 32)) : b'.print n = b.print n := by
  have hPreviousHash : b'.previousHash = b.previousHash := scan_eq_of_take_eq hPrevious h.arrays
  rw [Block.print, Block.print, hPreviousHash, h.bundle, h.blockIndex, h.timestamp,
    h.transactionCount]

/-- When the search succeeds, `validate_block` accepts the block, its hash is the hash of what
`validate_block` prints, and every nonce tried before misses the difficulty. -/
theorem hashBlock_validates (sha384 : Hash) (b : Block)
    (hPrevious : 0 ∈ b.arrays.bytes.take 96)
    (hBundle : 0 ∈ (b.arrays.bytes.drop 272).take 19999)
    (nonce : BitVec 32) (newHash : Digest)
    (hFound : b.search sha384 = some (some (nonce, newHash))) :
    ∃ b', hashBlock sha384 b = some b' ∧ validateBlock sha384 b' DIFFICULTY = some 1 ∧
      (∃ data, b'.data 29999 (some b'.nonce) = some data ∧
        b'.blockHash = (sha384 data.chars).bytes) ∧
      b'.nonce = nonce ∧ newHash.Mined ∧ b'.blockHash = newHash.bytes ∧
      ∀ k < nonce.toNat, ∃ data, b.data 129999 (some (BitVec.ofNat 32 k)) = some data ∧
        ¬(sha384 data.chars).Mined := by
  obtain ⟨⟨data, hData, hHash⟩, hMined, hEarlier⟩ := Block.search_found hFound
  obtain ⟨first, _, hFirst⟩ := Block.exists_data_of_inside hPrevious hBundle none
  obtain ⟨text, hText, hCapacity⟩ := Block.exists_data_of_inside hPrevious hBundle (some nonce)
  have hSame : text = data := Option.some.inj ((hCapacity 129999 (by decide)).symm.trans hData)
  subst hSame
  obtain ⟨b', hBlock, hSealed⟩ := hashBlock_sealed (hFirst 129999 (by decide)) hFound
  have hData' : b'.data 29999 (some b'.nonce) = some text := by
    rw [Block.data, hSealed.print hPrevious, hSealed.nonce, ← hCapacity 29999 (Nat.le_refl _),
      Block.data]
  refine ⟨b', hBlock, ?_, ⟨text, hData', ?_⟩, hSealed.nonce, hMined, hSealed.blockHash, hEarlier⟩
  · have hZeros : leadingZeros newHash.bytes DIFFICULTY = DIFFICULTY :=
      leadingZeros_eq_iff.mpr hMined
    simp only [validateBlock, hData', Option.bind_eq_bind, Option.bind_some, Int.toNat_natCast,
      hHash, hZeros]
    rfl
  · rw [hSealed.blockHash, hHash]

/-- An empty block and a hash that is zero on the texts that end in the digit 1. -/
theorem hashBlock_validates_one :
    let zeros : Digest := ⟨List.replicate 48 0, List.length_replicate⟩
    let ones : Digest := ⟨List.replicate 48 1, List.length_replicate⟩
    let sha384 : Hash := fun data => if data.getLast? = some 49 then zeros else ones
    let b : Block := ⟨0, ⟨List.replicate 20271 0, List.length_replicate⟩, 0, 0, 0⟩
    ∃ b', hashBlock sha384 b = some b' ∧ validateBlock sha384 b' DIFFICULTY = some 1 ∧
      (∃ data, b'.data 29999 (some b'.nonce) = some data ∧
        b'.blockHash = (sha384 data.chars).bytes) ∧
      b'.nonce = 1 ∧ zeros.Mined ∧ b'.blockHash = zeros.bytes ∧
      ∀ k < (1 : BitVec 32).toNat,
        ∃ data, b.data 129999 (some (BitVec.ofNat 32 k)) = some data ∧
          ¬(sha384 data.chars).Mined := by
  intro zeros ones sha384 b
  have hPrevious : 0 ∈ b.arrays.bytes.take 96 := by
    change 0 ∈ (List.replicate 20271 0).take 96
    rw [List.take_replicate]
    exact List.mem_replicate.mpr ⟨by decide, rfl⟩
  have hBundle : 0 ∈ (b.arrays.bytes.drop 272).take 19999 := by
    change 0 ∈ ((List.replicate 20271 0).drop 272).take 19999
    rw [List.drop_replicate, List.take_replicate]
    exact List.mem_replicate.mpr ⟨by decide, rfl⟩
  have hFound : b.search sha384 = some (some (1, zeros)) := by decide +kernel
  exact hashBlock_validates sha384 b hPrevious hBundle 1 zeros hFound

end Manhattan.Chain
