import Manhattan.Chain.Validation

/-! # A search that fails

hash_block leaves its loop in the same way whether a nonce was found or all were tried, and what
follows announces a proof of work and stores the block. A failed search is noticed by nobody
before `validate_block`.
-/

namespace Manhattan.Chain

open Library.CStrings Library.WordReadings

variable {sha384 : Hash} {b b' : Block}

/-- The nonce meets the difficulty. -/
def Block.Works (sha384 : Hash) (b : Block) (nonce : BitVec 32) : Prop :=
  ∃ data, b.data 129999 (some nonce) = some data ∧ (sha384 data.chars).Mined

/-- What is printed when previous_hash reads as `p` and transaction_bundle as `t`. -/
def Block.textOn (b : Block) (p t : CString) (nonce : BitVec 32) : CString :=
  decimal b.blockIndex.toInt ++ p ++ decimal b.timestamp.toInt ++
    decimal b.transactionCount.toInt ++ t ++ decimal nonce.toInt

/-- previous_hash as it reads after a failed search: a text that runs through block_hash comes to
the hexadecimal digits of what is there. -/
def Block.leftPrevious (b : Block) (p : CString) : CString :=
  if p.length < At.blockHashHex then p else p.take At.blockHashHex ++ hexText (hashOf b.arrays)

/-- The first nonce that works also works with no more than the 96 characters of previous_hash, or
no nonce below UINT32_MAX does and the one that the block came with does. -/
def Block.Accepted (sha384 : Hash) (b : Block) (p t : CString) : Prop :=
  (∃ nonce ≠ -1, b.Works sha384 nonce ∧ (∀ k < nonce, ¬b.Works sha384 k) ∧
    (sha384 (b.textOn (p.take At.blockHash) t nonce).chars).Mined) ∨
  (∀ nonce ≠ -1, ¬b.Works sha384 nonce) ∧
    (sha384 (b.textOn (b.leftPrevious p) t b.nonce).chars).Mined

/-! ## The search -/

theorem searchNonce_none_iff {turns : Nat} {start : BitVec 32} :
    searchNonce sha384 b turns start = some none ↔
      ∀ k < turns, ∃ data, b.data 129999 (some (start + BitVec.ofNat 32 k)) = some data ∧
        ¬(sha384 data.chars).Mined := by
  induction turns generalizing start with
  | zero => exact iff_of_true rfl fun k hk => absurd hk (Nat.not_lt_zero k)
  | succ turns ih =>
    have hZero : start + BitVec.ofNat 32 0 = start := BitVec.add_zero start
    rw [Nat.forall_lt_succ_left, hZero]
    simp only [add_ofNat_succ, ← ih]
    rw [searchNonce]
    cases hData : b.data 129999 (some start) with
    | none => simp
    | some data =>
      simp only [Option.bind_eq_bind, Option.bind_some, leadingZeros_eq_iff, Option.some.injEq,
        exists_eq_left']
      change (if (sha384 data.chars).Mined then _ else _) = _ ↔ _
      split
      · rename_i hMined
        simp [hMined]
      · rename_i hMined
        simp [hMined]

theorem toNat_lt_iff_ne (nonce : BitVec 32) : nonce.toNat < 2 ^ 32 - 1 ↔ nonce ≠ -1 := by
  have hLast : (-1 : BitVec 32).toNat = 2 ^ 32 - 1 := by decide
  rw [Ne, ← BitVec.toNat_inj, hLast]
  omega

theorem Block.search_none_iff :
    b.search sha384 = some none ↔ ∀ nonce ≠ -1, ∃ data, b.data 129999 (some nonce) = some data ∧
      ¬(sha384 data.chars).Mined := by
  rw [Block.search, searchNonce_none_iff]
  simp only [zero_add]
  constructor
  · intro h nonce hNonce
    have hData := h nonce.toNat ((toNat_lt_iff_ne nonce).mpr hNonce)
    rwa [BitVec.ofNat_toNat, BitVec.setWidth_eq] at hData
  · intro h k hk
    refine h _ ((toNat_lt_iff_ne _).mp ?_)
    rw [BitVec.toNat_ofNat]
    omega

theorem Block.not_works {data : CString} {nonce : BitVec 32}
    (hData : b.data 129999 (some nonce) = some data) (h : ¬(sha384 data.chars).Mined) :
    ¬b.Works sha384 nonce := by
  rintro ⟨data', hData', hMined⟩
  obtain rfl := Option.some.inj (hData.symm.trans hData')
  exact h hMined

theorem Block.search_first {nonce : BitVec 32} {newHash : Digest}
    (h : b.search sha384 = some (some (nonce, newHash))) :
    nonce ≠ -1 ∧ b.Works sha384 nonce ∧ ∀ k < nonce, ¬b.Works sha384 k := by
  obtain ⟨k, hk, hNonce, ⟨data, hData, rfl⟩, hMined, hEarlier⟩ := searchNonce_found h
  rw [zero_add] at hNonce
  have hNat : nonce.toNat = k := by
    rw [hNonce, BitVec.toNat_ofNat]
    omega
  refine ⟨(toNat_lt_iff_ne nonce).mp (hNat ▸ hk), ⟨data, hData, hMined⟩, fun j hj => ?_⟩
  obtain ⟨data', hData', hNot⟩ := hEarlier j.toNat (by rw [BitVec.lt_def] at hj; omega)
  rw [zero_add, BitVec.ofNat_toNat, BitVec.setWidth_eq] at hData'
  exact Block.not_works hData' hNot

/-! ## The block that is left -/

/-- What hash_block does to a block when no nonce works. -/
structure Block.Exhausted (b b' : Block) : Prop where
  blockIndex : b'.blockIndex = b.blockIndex
  timestamp : b'.timestamp = b.timestamp
  transactionCount : b'.transactionCount = b.transactionCount
  nonce : b'.nonce = b.nonce
  framed : Framed b.arrays b'.arrays
  hex : b'.blockHashHex = some (hexText (hashOf b.arrays))

theorem hashBlock_exhausted {data : CString} (hFirst : b.data 129999 none = some data)
    (hSearch : b.search sha384 = some none) :
    ∃ b', hashBlock sha384 b = some b' ∧ b.Exhausted b' := by
  obtain ⟨arrays', hHex, hFramed, hText⟩ := hexLoop_framed b.arrays
  refine ⟨{ b with arrays := arrays' }, ?_, rfl, rfl, rfl, rfl, hFramed, hText⟩
  simp only [hashBlock, hFirst, hSearch, Option.bind_eq_bind, Option.bind_some, hHex]
  rfl

theorem exhausted_of_none (h : hashBlock sha384 b = some b')
    (hNone : ∀ nonce ≠ -1, ¬b.Works sha384 nonce) : b.Exhausted b' := by
  obtain ⟨first, hFirst, hRest⟩ := Option.bind_eq_some_iff.mp h
  obtain ⟨found, hFound, _⟩ := Option.bind_eq_some_iff.mp hRest
  cases found with
  | none =>
    obtain ⟨left, hLeft, hExhausted⟩ := hashBlock_exhausted hFirst hFound
    obtain rfl := Option.some.inj (hLeft.symm.trans h)
    exact hExhausted
  | some pair =>
    obtain ⟨hNonce, hWorks, _⟩ := Block.search_first hFound
    exact absurd hWorks (hNone pair.1 hNonce)

theorem Block.Exhausted.previousHash (h : b.Exhausted b') {p : CString}
    (hPrevious : b.previousHash = some p) : b'.previousHash = some (b.leftPrevious p) := by
  have hTake := h.framed.before
  unfold Block.leftPrevious
  split
  · rename_i hShort
    exact (scan_eq_of_take_eq (mem_take_of_scan hPrevious hShort) hTake).trans hPrevious
  · rename_i hLong
    have hHead := hTake.trans (take_of_scan hPrevious (Nat.le_of_not_lt hLong))
    have hBytes := List.take_append_drop At.blockHashHex b'.arrays.bytes
    rw [hHead] at hBytes
    rw [Block.previousHash, Region.string, List.drop_zero, ← hBytes]
    exact scan_chars_append _ h.hex

theorem Block.Sealed.cutPrevious {nonce : BitVec 32} {newHash : Digest}
    (h : b.Sealed nonce newHash b') (hMined : newHash.Mined) {p : CString}
    (hPrevious : b.previousHash = some p) : b'.previousHash = some (p.take At.blockHash) := by
  obtain hShort | hLong := Nat.le_total p.length At.blockHash
  · rw [CString.take_of_length_le hShort]
    exact h.previousHash hMined hPrevious hShort
  · obtain ⟨more, hMore⟩ := h.drop_blockHash hMined
    have hHead := h.arrays.trans (take_of_scan hPrevious hLong)
    have hBytes := List.take_append_drop At.blockHash b'.arrays.bytes
    rw [hHead, hMore] at hBytes
    rw [Block.previousHash, Region.string, List.drop_zero, ← hBytes]
    exact scan_terminated _ more

/-! ## What validate_block says -/

theorem length_bundle_lt {t : CString} (h : b.transactionBundle = some t) : t.length < 19999 := by
  obtain ⟨rest, hBytes⟩ := exists_of_scan h
  have hLength := congrArg List.length hBytes
  rw [List.length_drop, b.arrays.length_bytes, List.length_append, List.length_cons] at hLength
  change 20271 - 272 = t.length + _ at hLength
  omega

/-- The texts fit the buffer of validate_block, and what it says is whether their hash is mined. -/
theorem validateBlock_iff {p t : CString} (hPrevious : b'.previousHash = some p)
    (hBundle : b'.transactionBundle = some t) (hLength : p.length ≤ 246) :
    validateBlock sha384 b' DIFFICULTY = some 1 ↔
      (sha384 (b'.textOn p t b'.nonce).chars).Mined := by
  have hFits := length_bundle_lt hBundle
  obtain ⟨text, hPrint, hData⟩ := Block.exists_data hPrevious hBundle (by omega) (some b'.nonce)
  have hText : b'.print (some b'.nonce) = some (b'.textOn p t b'.nonce) := by
    simp only [Block.print, hPrevious, hBundle, Option.bind_eq_bind, Option.bind_some]
    rfl
  obtain rfl := Option.some.inj (hPrint.symm.trans hText)
  simp only [validateBlock, hData 29999 (Nat.le_refl _), Option.bind_eq_bind, Option.bind_some,
    Int.toNat_natCast, Int.natCast_inj, leadingZeros_eq_iff]
  change some (if (sha384 _).Mined then (1 : Int) else 0) = some 1 ↔ _
  split
  · rename_i hMined
    exact iff_of_true rfl hMined
  · rename_i hMined
    exact iff_of_false (by simp) hMined

theorem length_leftPrevious_le (b : Block) (p : CString) : (b.leftPrevious p).length ≤ 246 := by
  unfold Block.leftPrevious
  split
  · simp only [At.blockHashHex] at *
    omega
  · have hTake := CString.length_take_le At.blockHashHex p
    have hHex := length_hexText_le (hashOf b.arrays)
    rw [CString.length_append]
    simp only [At.blockHashHex] at *
    omega

theorem accepted_of_found {nonce : BitVec 32} {newHash : Digest} {p t : CString}
    (hFound : b.search sha384 = some (some (nonce, newHash))) :
    b.Accepted sha384 p t ↔
      (sha384 (b.textOn (p.take At.blockHash) t nonce).chars).Mined := by
  obtain ⟨hNonce, hWorks, hFirst⟩ := Block.search_first hFound
  constructor
  · rintro (⟨other, _, hOther, hFirst', hMined⟩ | ⟨hNone, _⟩)
    · obtain hLt | hEq | hGt := Nat.lt_trichotomy other.toNat nonce.toNat
      · exact absurd hOther (hFirst other (BitVec.lt_def.mpr hLt))
      · rwa [← BitVec.eq_of_toNat_eq hEq]
      · exact absurd hWorks (hFirst' nonce (BitVec.lt_def.mpr hGt))
    · exact absurd hWorks (hNone nonce hNonce)
  · intro hMined
    exact .inl ⟨nonce, hNonce, hWorks, hFirst, hMined⟩

theorem accepted_of_exhausted {p t : CString} (hNone : ∀ nonce ≠ -1, ¬b.Works sha384 nonce) :
    b.Accepted sha384 p t ↔
      (sha384 (b.textOn (b.leftPrevious p) t b.nonce).chars).Mined := by
  constructor
  · rintro (⟨nonce, hNonce, hWorks, _⟩ | ⟨_, hMined⟩)
    · exact absurd hWorks (hNone nonce hNonce)
    · exact hMined
  · exact fun hMined => .inr ⟨hNone, hMined⟩

theorem hashBlock_accepted_iff (h : hashBlock sha384 b = some b') :
    ∃ p t, b.previousHash = some p ∧ b.transactionBundle = some t ∧
      (validateBlock sha384 b' DIFFICULTY = some 1 ↔ b.Accepted sha384 p t) := by
  obtain ⟨first, hFirst, hRest⟩ := Option.bind_eq_some_iff.mp h
  obtain ⟨found, hFound, _⟩ := Option.bind_eq_some_iff.mp hRest
  obtain ⟨printed, hPrint, _⟩ := Option.bind_eq_some_iff.mp hFirst
  obtain ⟨p, hPrevious, hPrint⟩ := Option.bind_eq_some_iff.mp hPrint
  obtain ⟨t, hBundle, _⟩ := Option.bind_eq_some_iff.mp hPrint
  refine ⟨p, t, hPrevious, hBundle, ?_⟩
  cases found with
  | none =>
    have hNone : ∀ nonce ≠ -1, ¬b.Works sha384 nonce := by
      intro nonce hNonce
      obtain ⟨data, hData, hNot⟩ := Block.search_none_iff.mp hFound nonce hNonce
      exact Block.not_works hData hNot
    have hExhausted := exhausted_of_none h hNone
    have hBundle' : b'.transactionBundle = some t :=
      (congrArg scan hExhausted.framed.behind).trans hBundle
    rw [accepted_of_exhausted hNone, validateBlock_iff (hExhausted.previousHash hPrevious) hBundle'
      (length_leftPrevious_le b p)]
    simp only [Block.textOn, hExhausted.blockIndex, hExhausted.timestamp,
      hExhausted.transactionCount, hExhausted.nonce]
  | some pair =>
    obtain ⟨nonce, newHash⟩ := pair
    obtain ⟨done, hDone, hSealed⟩ := hashBlock_sealed hFirst hFound
    obtain rfl := Option.some.inj (hDone.symm.trans h)
    have hMined := (Block.search_found hFound).2.1
    have hCut := CString.length_take_le At.blockHash p
    rw [accepted_of_found hFound, validateBlock_iff (hSealed.cutPrevious hMined hPrevious)
      (hSealed.bundle.trans hBundle) (Nat.le_trans hCut (by decide))]
    simp only [Block.textOn, hSealed.blockIndex, hSealed.timestamp, hSealed.transactionCount,
      hSealed.nonce]

/-! ## mine -/

theorem insertRow_eq_self_iff (rows : List Row) (row : Row) :
    insertRow rows row = rows ↔ row.blockHash ∈ rows.map Row.blockHash := by
  unfold insertRow
  split
  · rename_i hThere
    exact iff_of_true rfl hThere
  · rename_i hNew
    exact iff_of_false (by simp) hNew

/-- The row that a failed search leaves in the table. -/
theorem mine_exhausted {sqlite : Sqlite} {call : Call} {rows started rows' : List Row} {b₀ b : Block}
    (hStart : call.start rows = some started) (hNew : newBlock sqlite call started = some b₀)
    (hNone : ∀ nonce ≠ -1, ¬b₀.Works sha384 nonce)
    (h : mine sha384 sqlite call rows = some (b, rows')) :
    ∃ row, rows' = insertRow started row ∧ row.blockHash = hexText (hashOf b₀.arrays) := by
  obtain ⟨started', hStart', h⟩ := Option.bind_eq_some_iff.mp h
  obtain rfl := Option.some.inj (hStart.symm.trans hStart')
  obtain ⟨b', hCreate, h⟩ := Option.bind_eq_some_iff.mp h
  obtain ⟨rows'', hAdd, h⟩ := Option.bind_eq_some_iff.mp h
  cases h
  rw [createBlock, hNew] at hCreate
  have hExhausted := exhausted_of_none hCreate hNone
  obtain ⟨blockHash, hHex, hAdd⟩ := Option.bind_eq_some_iff.mp hAdd
  obtain ⟨previousHash, _, hAdd⟩ := Option.bind_eq_some_iff.mp hAdd
  obtain ⟨bundle, _, hAdd⟩ := Option.bind_eq_some_iff.mp hAdd
  obtain rfl := Option.some.inj (hHex.symm.trans hExhausted.hex)
  exact ⟨_, (Option.some.inj hAdd).symm, rfl⟩

/-- Whenever hash_block returns, `validate_block` accepts the block if and only if a nonce was
found that works on what is left of the block, or the block happens to work as it is; and a call
of mine whose search fails stores its block, unless a row has its hash already. -/
theorem failed_search_noticed_iff (sha384 : Hash) :
    (∀ b b', hashBlock sha384 b = some b' →
      ∃ p t, b.previousHash = some p ∧ b.transactionBundle = some t ∧
        (validateBlock sha384 b' DIFFICULTY = some 1 ↔ b.Accepted sha384 p t)) ∧
    ∀ (sqlite : Sqlite) (call : Call) (rows started rows' : List Row) (b₀ b : Block),
      call.start rows = some started → newBlock sqlite call started = some b₀ →
      (∀ nonce ≠ -1, ¬b₀.Works sha384 nonce) → mine sha384 sqlite call rows = some (b, rows') →
        (rows' = started ↔ hexText (hashOf b₀.arrays) ∈ started.map Row.blockHash) := by
  refine ⟨fun b b' h => hashBlock_accepted_iff h, ?_⟩
  intro sqlite call rows started rows' b₀ b hStart hNew hNone h
  obtain ⟨row, rfl, hRow⟩ := mine_exhausted hStart hNew hNone h
  rw [insertRow_eq_self_iff, hRow]

/-! ## Hard hashes -/

theorem exists_hashBlock_of_hard (hHard : ∀ data, ¬(sha384 data).Mined) {p t : CString}
    (hPrevious : b.previousHash = some p) (hBundle : b.transactionBundle = some t)
    (hLength : p.length ≤ 143) :
    ∃ b', hashBlock sha384 b = some b' ∧ b.Exhausted b' ∧ b'.previousHash = some p ∧
      b'.transactionBundle = some t ∧ validateBlock sha384 b' DIFFICULTY = some 0 := by
  have hFits := length_bundle_lt hBundle
  have hData : ∀ nonce, ∃ data, b.data 129999 nonce = some data := by
    intro nonce
    obtain ⟨data, _, hData⟩ := Block.exists_data hPrevious hBundle (by omega) nonce
    exact ⟨data, hData 129999 (by decide)⟩
  have hSearch : b.search sha384 = some none := by
    refine Block.search_none_iff.mpr fun nonce _ => ?_
    obtain ⟨data, hText⟩ := hData (some nonce)
    exact ⟨data, hText, hHard data.chars⟩
  obtain ⟨first, hFirst⟩ := hData none
  obtain ⟨b', hHash, hExhausted⟩ := hashBlock_exhausted hFirst hSearch
  have hPrevious' := hExhausted.previousHash hPrevious
  rw [Block.leftPrevious, if_pos (by simp only [At.blockHashHex]; omega)] at hPrevious'
  have hBundle' : b'.transactionBundle = some t :=
    (congrArg scan hExhausted.framed.behind).trans hBundle
  obtain ⟨text, _, hText⟩ := Block.exists_data hPrevious' hBundle' (by omega) (some b'.nonce)
  have hZeros : leadingZeros (sha384 text.chars).bytes DIFFICULTY ≠ DIFFICULTY := fun hZeros =>
    hHard text.chars (leadingZeros_eq_iff.mp hZeros)
  refine ⟨b', hHash, hExhausted, hPrevious', hBundle', ?_⟩
  simp [validateBlock, hText 29999 (Nat.le_refl _), hZeros]

theorem exists_mine_of_hard (hHard : ∀ data, ¬(sha384 data).Mined) {sqlite : Sqlite} {call : Call}
    {rows started : List Row} {r : Row} (hStart : call.start rows = some started)
    (hNewest : sqlite.newest started = some r) (hReadable : call.Readable)
    (hLength : r.blockHash.length ≤ 102) :
    ∃ b row, mine sha384 sqlite call rows = some (b, insertRow started row) ∧
      validateBlock sha384 b DIFFICULTY = some 0 ∧ 96 ≤ row.blockHash.length := by
  obtain ⟨b₀, hNew⟩ := exists_newBlock hReadable hNewest (by omega)
  obtain ⟨r', pool, hNewest', hPrepared⟩ := newBlock_prepared hNew
  obtain rfl := Option.some.inj (hNewest.symm.trans hNewest')
  obtain ⟨b, hHash, hExhausted, hPrevious, hBundle, hRejected⟩ := exists_hashBlock_of_hard hHard
    hPrepared.previousHash (hPrepared.bundle (by omega)) (by omega)
  refine ⟨b, ⟨hexText (hashOf b₀.arrays), r.blockHash, output pool, b.transactionCount.toInt,
    bindInt b.timestamp, b.nonce.toInt⟩, ?_, hRejected, le_length_hexText _⟩
  simp only [mine, hStart, createBlock, hNew, hHash, addBlock, hExhausted.hex, hPrevious, hBundle,
    Option.bind_eq_bind, Option.bind_some]
  rfl

/-- With a hash that never starts with a zero byte: hash_block returns, the block is rejected, and
a call of mine on the genesis row stores a second row. -/
theorem failed_search_stored :
    let sha384 : Hash := fun _ => oneDigest
    (∀ nonce, ¬zeroBlock.Works sha384 nonce) ∧
    (∃ b', hashBlock sha384 zeroBlock = some b' ∧ validateBlock sha384 b' DIFFICULTY = some 0) ∧
    ∃ b row, mine sha384 Sqlite.first (callAt 1001) [epochRow 1000] =
        some (b, [epochRow 1000, row]) ∧ validateBlock sha384 b DIFFICULTY = some 0 := by
  intro sha384
  have hHard : ∀ data, ¬(sha384 data).Mined := fun _ => by decide
  refine ⟨fun nonce hWorks => ?_, ?_, ?_⟩
  · obtain ⟨data, _, hMined⟩ := hWorks
    exact hHard data.chars hMined
  · obtain ⟨b', hHash, _, _, _, hRejected⟩ := exists_hashBlock_of_hard (b := zeroBlock)
      (p := .empty) (t := .empty) hHard rfl rfl (by decide)
    exact ⟨b', hHash, hRejected⟩
  · have hStart : (callAt 1001).start [epochRow 1000] = some [epochRow 1000] :=
      startBlockchain_of_ne_nil _ _ _ (List.cons_ne_nil _ _)
    have hShort : (epochRow 1000).blockHash.length ≤ 102 :=
      short_epoch 1000 _ (List.mem_singleton.mpr rfl)
    obtain ⟨b, row, hMine, hRejected, hText⟩ := exists_mine_of_hard hHard hStart
      (Sqlite.first.newest_singleton (epochRow 1000)) (callAt_readable 1001) hShort
    refine ⟨b, row, hMine.trans ?_, hRejected⟩
    have hNew : row.blockHash ∉ [epochRow 1000].map Row.blockHash := by
      intro hOld
      have hEpoch : EPOCH.length < 96 := by decide
      have hSame : row.blockHash = EPOCH := List.mem_singleton.mp hOld
      rw [hSame] at hText
      omega
    rw [insertRow, if_neg hNew, List.singleton_append]

end Manhattan.Chain
