import Manhattan.Chain.Agreement
import Manhattan.Chain.Mining

/-! # What a call of mine() does

The genesis row, the block that goes into `hash_block`, and the row that comes out, each
from the table that the call finds.
-/

namespace Manhattan.Chain

open Library.CStrings

/-! ## start_blockchain -/

theorem exists_genesisBlock (uninit : Block) (timestamp : BitVec 64) :
    ∃ genesis, genesisBlock uninit timestamp = some genesis ∧
      genesis.previousHash = some EPOCH ∧ genesis.arrays.string At.blockHash = some EPOCH ∧
      genesis.transactionBundle = some EPOCH ∧ genesis.transactionCount = 0 ∧
      genesis.nonce = 0 ∧
      ∀ timestamp', genesisBlock uninit timestamp' = some { genesis with timestamp := timestamp' } := by
  obtain ⟨first, hFirst⟩ := uninit.arrays.exists_strcpy At.previousHash EPOCH (by decide)
  obtain ⟨second, hSecond⟩ := first.exists_strcpy At.blockHash EPOCH (by decide)
  obtain ⟨third, hThird⟩ := second.exists_strcpy At.transactionBundle EPOCH (by decide)
  have hPrevious := Region.string_strcpy_before
    (Region.string_strcpy_before (Region.string_strcpy hFirst) (by decide) hSecond) (by decide) hThird
  have hHash := Region.string_strcpy_before (Region.string_strcpy hSecond) (by decide) hThird
  refine ⟨⟨uninit.blockIndex, third, 0, timestamp, 0⟩, ?_, hPrevious, hHash,
    Region.string_strcpy hThird, rfl, rfl, ?_⟩
  · simp only [genesisBlock, hFirst, hSecond, hThird, Option.bind_eq_bind, Option.bind_some]
    rfl
  · intro timestamp'
    simp only [genesisBlock, hFirst, hSecond, hThird, Option.bind_eq_bind, Option.bind_some]
    rfl

def epochRow (now : BitVec 64) : Row where
  blockHash := EPOCH
  previousHash := EPOCH
  blockData := EPOCH
  transactionCount := 0
  timestamp := bindInt (now - 1)
  nonce := 0

theorem genesisRow_epoch (genesis : Block) (hPrevious : genesis.previousHash = some EPOCH)
    (hHash : genesis.arrays.string At.blockHash = some EPOCH)
    (hBundle : genesis.transactionBundle = some EPOCH) (hCount : genesis.transactionCount = 0)
    (hNonce : genesis.nonce = 0) {now : BitVec 64} (hTimestamp : genesis.timestamp = now - 1) :
    genesisRow genesis = some (epochRow now) := by
  simp only [genesisRow, hPrevious, hHash, hBundle, hCount, hNonce, hTimestamp,
    Option.bind_eq_bind, Option.bind_some]
  rfl

theorem startBlockchain_nil (uninit : Block) (structClock genesisClock : BitVec 64) :
    startBlockchain uninit structClock genesisClock [] = some [epochRow genesisClock] := by
  obtain ⟨genesis, hGenesis, hPrevious, hHash, hBundle, hCount, hNonce, _⟩ :=
    exists_genesisBlock uninit structClock
  have hRow : genesisRow { genesis with timestamp := genesisClock - 1 } =
      some (epochRow genesisClock) :=
    genesisRow_epoch { genesis with timestamp := genesisClock - 1 } hPrevious hHash hBundle hCount hNonce rfl
  simp only [startBlockchain, hGenesis, Option.bind_eq_bind, Option.bind_some, hRow]
  rfl

theorem startBlockchain_of_ne_nil (uninit : Block) (structClock genesisClock : BitVec 64)
    {rows : List Row} (hRows : rows ≠ []) :
    startBlockchain uninit structClock genesisClock rows = some rows := by
  obtain ⟨genesis, hGenesis, _⟩ := exists_genesisBlock uninit structClock
  have hLength : ¬rows.length = 0 := fun h => hRows (List.length_eq_zero_iff.mp h)
  simp only [startBlockchain, hGenesis, Option.bind_eq_bind, Option.bind_some, if_neg hLength]
  rfl

theorem Sqlite.newest_singleton (sqlite : Sqlite) (r : Row) : sqlite.newest [r] = some r := by
  obtain ⟨r', hMem, hNewest, _⟩ := sqlite.newest_of_ne_nil [r] (List.cons_ne_nil _ _)
  rw [hNewest, List.mem_singleton.mp hMem]

theorem Sqlite.mem_of_newest {sqlite : Sqlite} {rows : List Row} {r : Row}
    (h : sqlite.newest rows = some r) : r ∈ rows := by
  cases rows with
  | nil =>
    rw [sqlite.newest_nil] at h
    cases h
  | cons first rest =>
    obtain ⟨r', hMem, hNewest, _⟩ := sqlite.newest_of_ne_nil _ (List.cons_ne_nil first rest)
    rw [h] at hNewest
    cases hNewest
    exact hMem

theorem insertRow_cases (rows : List Row) (row : Row) :
    insertRow rows row = rows ∨ insertRow rows row = rows ++ [row] := by
  unfold insertRow
  split
  · exact .inl rfl
  · exact .inr rfl

theorem mem_insertRow {rows : List Row} {row r : Row} (h : r ∈ insertRow rows row) :
    r ∈ rows ∨ r = row := by
  rcases insertRow_cases rows row with hSame | hMore
  · exact .inl (hSame ▸ h)
  · exact (List.mem_append.mp (hMore ▸ h)).imp_right List.mem_singleton.mp

theorem ne_nil_of_mem_insertRow {rows : List Row} (hRows : rows ≠ []) (row : Row) :
    insertRow rows row ≠ [] := by
  rcases insertRow_cases rows row with hSame | hMore
  · rwa [hSame]
  · rw [hMore]
    exact List.append_ne_nil_of_left_ne_nil hRows _

/-! ## create_block -/

/-- The pool can be read and its text fits `transaction_bundle`. -/
def Call.Readable (call : Call) : Prop :=
  ∃ pool, call.pool = some pool ∧ (output pool).length < 19999

structure Call.Prepared (call : Call) (pool : List (List CString)) (text : CString) (b : Block) :
    Prop where
  rows : call.pool = some pool
  fits : (output pool).length < 19999
  previousHash : b.previousHash = some text
  bundle : text.length < 272 → b.transactionBundle = some (output pool)
  transactionCount : b.transactionCount = BitVec.ofNat 32 pool.length
  timestamp : b.timestamp = call.blockClock

theorem newBlock_prepared {sqlite : Sqlite} {call : Call} {rows : List Row} {b : Block}
    (h : newBlock sqlite call rows = some b) :
    ∃ r pool, sqlite.newest rows = some r ∧ call.Prepared pool r.blockHash b := by
  obtain ⟨pool, hPool, h⟩ := Option.bind_eq_some_iff.mp h
  obtain ⟨first, hFirst, h⟩ := Option.bind_eq_some_iff.mp h
  obtain ⟨text, hPrevious, h⟩ := Option.bind_eq_some_iff.mp h
  obtain ⟨r, hNewest, rfl⟩ := Option.map_eq_some_iff.mp hPrevious
  obtain ⟨second, hSecond, h⟩ := Option.bind_eq_some_iff.mp h
  cases h
  have hFits : (output pool).length < 19999 := by
    have hRegion := Region.strcpy_fits hFirst
    simp only [At.transactionBundle] at hRegion
    omega
  refine ⟨r, pool, hNewest, hPool, hFits, Region.string_strcpy hSecond, ?_, rfl, rfl⟩
  intro hLength
  exact (Region.string_strcpy_behind (by simpa using hLength) hSecond).trans
    (Region.string_strcpy hFirst)

theorem exists_newBlock {sqlite : Sqlite} {call : Call} {rows : List Row} {r : Row}
    (hReadable : call.Readable) (hNewest : sqlite.newest rows = some r)
    (hLength : r.blockHash.length < 20271) : ∃ b, newBlock sqlite call rows = some b := by
  obtain ⟨pool, hPool, hOutput⟩ := hReadable
  obtain ⟨first, hFirst⟩ := call.blockUninit.arrays.exists_strcpy At.transactionBundle
    (output pool) (by simp only [At.transactionBundle]; omega)
  obtain ⟨second, hSecond⟩ := first.exists_strcpy At.previousHash r.blockHash
    (by simpa using hLength)
  have hNew : newBlock sqlite call rows = some
      ⟨call.blockUninit.blockIndex, second, BitVec.ofNat 32 pool.length, call.blockClock, 0⟩ := by
    simp only [newBlock, hPool, hFirst, getPreviousHash, hNewest, Option.map_some, hSecond,
      Option.bind_eq_bind, Option.bind_some]
    rfl
  exact ⟨_, hNew⟩

theorem Call.Prepared.exists_data {call : Call} {pool : List (List CString)} {text : CString}
    {b : Block} (h : call.Prepared pool text b) (hText : text.length ≤ 128)
    (nonce : Option (BitVec 32)) : ∃ data, b.data 129999 nonce = some data := by
  have hFits := h.fits
  obtain ⟨data, _, hData⟩ :=
    Block.exists_data h.previousHash (h.bundle (by omega)) (by omega) nonce
  exact ⟨data, hData 129999 (by decide)⟩

theorem Block.Sealed.drop_blockHash {b b' : Block} {nonce : BitVec 32} {newHash : Digest}
    (h : b.Sealed nonce newHash b') (hMined : newHash.Mined) :
    ∃ more, b'.arrays.bytes.drop At.blockHash = 0 :: more := by
  have hHash := h.blockHash
  cases hDrop : b'.arrays.bytes.drop At.blockHash with
  | nil =>
    rw [Block.blockHash, hDrop] at hHash
    have hLength := congrArg List.length hHash
    rw [newHash.length_bytes] at hLength
    cases hLength
  | cons c more =>
    rw [Block.blockHash, hDrop] at hHash
    rw [Digest.Mined, ← hHash] at hMined
    exact ⟨more, by rw [(List.cons.inj hMined).1]⟩

/-- `previous_hash` fills its array at most, and the mined hash behind it starts with a NUL. -/
theorem Block.Sealed.previousHash {b b' : Block} {nonce : BitVec 32} {newHash : Digest}
    (h : b.Sealed nonce newHash b') (hMined : newHash.Mined) {text : CString}
    (hPrevious : b.previousHash = some text) (hText : text.length ≤ 96) :
    b'.previousHash = some text := by
  obtain ⟨more, hMore⟩ := h.drop_blockHash hMined
  have hBytes : b'.arrays.bytes = b.arrays.bytes.take At.blockHash ++ 0 :: more := by
    rw [← h.arrays, ← hMore, List.take_append_drop]
  rw [Block.previousHash, Region.string, List.drop_zero, hBytes]
  exact scan_take_append hPrevious hText more

/-! ## mine -/

/-- The row of a block with the hash `newHash` that was put on top of `text`. -/
def Call.row (call : Call) (text : CString) (pool : List (List CString)) (nonce : BitVec 32)
    (newHash : Digest) : Row where
  blockHash := hexText newHash.bytes
  previousHash := text
  blockData := output pool
  transactionCount := (BitVec.ofNat 32 pool.length).toInt
  timestamp := bindInt call.blockClock
  nonce := nonce.toInt

theorem exists_mine {sha384 : Hash} {sqlite : Sqlite} {call : Call} {rows started : List Row}
    {r : Row} (hStart : call.start rows = some started) (hNewest : sqlite.newest started = some r)
    (hReadable : call.Readable) (hLength : r.blockHash.length ≤ 96)
    (hSucceeds : call.Succeeds sha384 sqlite rows) :
    ∃ b pool nonce newHash, mine sha384 sqlite call rows =
        some (b, insertRow started (call.row r.blockHash pool nonce newHash)) ∧
      newHash.Mined ∧ (∃ data, sha384 data = newHash) ∧ b.previousHash = some r.blockHash ∧
      b.blockHashHex = some (hexText newHash.bytes) := by
  obtain ⟨b₀, hNew⟩ := exists_newBlock hReadable hNewest (by omega)
  obtain ⟨r', pool, hNewest', hPrepared⟩ := newBlock_prepared hNew
  rw [hNewest] at hNewest'
  cases hNewest'
  obtain ⟨nonce, newHash, hFound⟩ := hSucceeds started b₀ hStart hNew
  obtain ⟨first, hFirst⟩ := hPrepared.exists_data (by omega) none
  obtain ⟨b, hHash, hSealed⟩ := hashBlock_sealed hFirst hFound
  obtain ⟨⟨data, _, hData⟩, hMined, _⟩ := Block.search_found hFound
  have hPrevious := hSealed.previousHash hMined hPrepared.previousHash hLength
  have hBundle : b.transactionBundle = some (output pool) :=
    hSealed.bundle.trans (hPrepared.bundle (by omega))
  refine ⟨b, pool, nonce, newHash, ?_, hMined, ⟨data.chars, hData⟩, hPrevious, hSealed.hex⟩
  simp only [mine, hStart, createBlock, hNew, hHash, addBlock, hSealed.hex, hPrevious, hBundle,
    hSealed.nonce, hSealed.timestamp, hPrepared.timestamp, hSealed.transactionCount,
    hPrepared.transactionCount, Option.bind_eq_bind, Option.bind_some]
  rfl

theorem mine_block {sha384 : Hash} {sqlite : Sqlite} {call : Call} {rows rows' : List Row}
    {b : Block} (h : mine sha384 sqlite call rows = some (b, rows'))
    (hSucceeds : call.Succeeds sha384 sqlite rows) :
    ∃ started r pool b₀ nonce newHash, call.start rows = some started ∧
      sqlite.newest started = some r ∧ call.Prepared pool r.blockHash b₀ ∧
      b₀.Sealed nonce newHash b ∧ newHash.Mined ∧
      ∃ row, rows' = insertRow started row ∧ row.blockHash = hexText newHash.bytes := by
  obtain ⟨started, hStart, h⟩ := Option.bind_eq_some_iff.mp h
  obtain ⟨b', hCreate, h⟩ := Option.bind_eq_some_iff.mp h
  obtain ⟨rows'', hAdd, h⟩ := Option.bind_eq_some_iff.mp h
  cases h
  obtain ⟨b₀, hNew, hHash⟩ := Option.bind_eq_some_iff.mp hCreate
  obtain ⟨r, pool, hNewest, hPrepared⟩ := newBlock_prepared hNew
  obtain ⟨nonce, newHash, hFound⟩ := hSucceeds started b₀ hStart hNew
  obtain ⟨first, hFirst, _⟩ := Option.bind_eq_some_iff.mp hHash
  obtain ⟨sealedBlock, hHash', hSealed⟩ := hashBlock_sealed hFirst hFound
  rw [hHash] at hHash'
  cases hHash'
  obtain ⟨blockHash, hHex, hAdd⟩ := Option.bind_eq_some_iff.mp hAdd
  obtain ⟨previousHash, _, hAdd⟩ := Option.bind_eq_some_iff.mp hAdd
  obtain ⟨bundle, _, hAdd⟩ := Option.bind_eq_some_iff.mp hAdd
  rw [hSealed.hex] at hHex
  obtain rfl := Option.some.inj hHex
  exact ⟨started, r, pool, b₀, nonce, newHash, hStart, hNewest, hPrepared, hSealed,
    (Block.search_found hFound).2.1, _, (Option.some.inj hAdd).symm, rfl⟩

theorem mineAll_cons {sha384 : Hash} {sqlite : Sqlite} {call : Call} {rest : List Call}
    {rows middle last : List Row} {b : Block} {blocks : List Block}
    (h : mine sha384 sqlite call rows = some (b, middle))
    (hRest : mineAll sha384 sqlite rest middle = some (blocks, last)) :
    mineAll sha384 sqlite (call :: rest) rows = some (b :: blocks, last) := by
  simp only [mineAll, h, hRest, Option.bind_eq_bind, Option.bind_some]
  rfl

theorem Block.search_of_first {sha384 : Hash} {b : Block} {data : CString}
    (hData : b.data 129999 (some 0) = some data) (hMined : (sha384 data.chars).Mined) :
    b.search sha384 = some (some (0, sha384 data.chars)) := by
  have hZeros := leadingZeros_eq_iff.mpr hMined
  have hStep : ∀ turns, searchNonce sha384 b (turns + 1) 0 =
      some (some (0, sha384 data.chars)) := by
    intro turns
    rw [searchNonce, hData]
    exact if_pos hZeros
  exact hStep (2 ^ 32 - 2)

/-! ## Easy hashes -/

/-- Every text in the table is one that `hash_block` or `start_blockchain` wrote. -/
def Short (rows : List Row) : Prop := ∀ r ∈ rows, r.blockHash.length ≤ 102

theorem short_nil : Short [] := fun _ hr => absurd hr List.not_mem_nil

theorem short_epoch (now : BitVec 64) : Short [epochRow now] := by
  intro r hr
  have hEpoch : EPOCH.length ≤ 102 := by decide
  rw [List.mem_singleton.mp hr]
  exact hEpoch

theorem Short.insertRow {rows : List Row} (h : Short rows) {row : Row}
    (hRow : row.blockHash.length ≤ 102) : Short (insertRow rows row) := by
  intro r hr
  rcases mem_insertRow hr with hOld | rfl
  · exact h r hOld
  · exact hRow

theorem Call.start_short {call : Call} {rows started : List Row} (h : Short rows)
    (hStart : call.start rows = some started) : Short started := by
  by_cases hRows : rows = []
  · subst hRows
    rw [Call.start, startBlockchain_nil] at hStart
    exact Option.some.inj hStart ▸ short_epoch _
  · rw [Call.start, startBlockchain_of_ne_nil _ _ _ hRows] at hStart
    exact Option.some.inj hStart ▸ h

variable {sha384 : Hash} {sqlite : Sqlite}

theorem exists_createBlock (sha384 : Hash) {call : Call} {rows : List Row} {r : Row}
    (hReadable : call.Readable) (hNewest : sqlite.newest rows = some r)
    (hLength : r.blockHash.length ≤ 102) : ∃ b, createBlock sha384 sqlite call rows = some b := by
  obtain ⟨b₀, hNew⟩ := exists_newBlock hReadable hNewest (by omega)
  obtain ⟨r', pool, hNewest', hPrepared⟩ := newBlock_prepared hNew
  obtain rfl := Option.some.inj (hNewest.symm.trans hNewest')
  obtain ⟨b, hHash⟩ := exists_hashBlock_of_data sha384 fun nonce =>
    hPrepared.exists_data (by omega) nonce
  refine ⟨b, ?_⟩
  rw [createBlock, hNew]
  exact hHash

theorem Call.succeeds_of_easy (hEasy : ∀ data, (sha384 data).Mined) (call : Call)
    {rows : List Row} (hShort : Short rows) : call.Succeeds sha384 sqlite rows := by
  intro started b hStart hNew
  obtain ⟨r, pool, hNewest, hPrepared⟩ := newBlock_prepared hNew
  have hText := call.start_short hShort hStart r (Sqlite.mem_of_newest hNewest)
  obtain ⟨data, hData⟩ := hPrepared.exists_data (by omega) (some 0)
  exact ⟨0, _, Block.search_of_first hData (hEasy _)⟩

theorem along_of_easy (sqlite : Sqlite) (hEasy : ∀ data, (sha384 data).Mined) (calls : List Call)
    {rows : List Row} (hShort : Short rows) :
    Along sha384 sqlite (Call.Succeeds sha384 sqlite) calls rows := by
  induction calls generalizing rows with
  | nil => trivial
  | cons call rest ih =>
    have hSucceeds : call.Succeeds sha384 sqlite rows := call.succeeds_of_easy hEasy hShort
    refine ⟨hSucceeds, ?_⟩
    intro rows' hStep
    obtain ⟨b, hMine⟩ := mineStep_eq_some.mp hStep
    obtain ⟨started, r, pool, b₀, nonce, newHash, hStart, _, _, _, _, row, rfl, hRow⟩ :=
      mine_block hMine hSucceeds
    have hText : row.blockHash.length ≤ 102 := by
      rw [hRow]
      exact length_hexText_le _
    exact ih ((call.start_short hShort hStart).insertRow hText)

theorem mine_stores {call : Call} {rows rows' : List Row} {b : Block}
    (h : mine sha384 sqlite call rows = some (b, rows')) (hShort : Short rows) :
    ∃ started pool row, call.start rows = some started ∧ call.pool = some pool ∧
      rows' = insertRow started row ∧ row.blockData = output pool ∧
      row.blockHash.length ≤ 102 := by
  obtain ⟨started, hStart, h⟩ := Option.bind_eq_some_iff.mp h
  obtain ⟨b', hCreate, h⟩ := Option.bind_eq_some_iff.mp h
  obtain ⟨rows'', hAdd, h⟩ := Option.bind_eq_some_iff.mp h
  cases h
  obtain ⟨b₀, hNew, hHash⟩ := Option.bind_eq_some_iff.mp hCreate
  obtain ⟨r, pool, hNewest, hPrepared⟩ := newBlock_prepared hNew
  obtain ⟨hBundle, _, hash, hHex⟩ := hashBlock_keeps hHash
  have hText := call.start_short hShort hStart r (Sqlite.mem_of_newest hNewest)
  rw [hPrepared.bundle (by omega)] at hBundle
  obtain ⟨blockHash, hBlockHash, hAdd⟩ := Option.bind_eq_some_iff.mp hAdd
  obtain ⟨previousHash, _, hAdd⟩ := Option.bind_eq_some_iff.mp hAdd
  obtain ⟨bundle, hBlockData, hAdd⟩ := Option.bind_eq_some_iff.mp hAdd
  obtain rfl := Option.some.inj (hHex.symm.trans hBlockHash)
  obtain rfl := Option.some.inj (hBundle.symm.trans hBlockData)
  exact ⟨started, pool, _, hStart, hPrepared.rows, (Option.some.inj hAdd).symm, rfl,
    length_hexText_le hash⟩

end Manhattan.Chain
