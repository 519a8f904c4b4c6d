import Manhattan.Chain.MiningRules

/-! # What validate_blockchain accepts

A mined block starts `block_hash` with NULs, so `strcmp` sees an empty string there, while
the block after it starts `previous_hash` with the text from the table, which never is
empty. A chain of mined blocks is therefore rejected at its second link.
-/

namespace Manhattan.Chain

open Library.CStrings

variable {sha384 : Hash} {sqlite : Sqlite}

def Named (rows : List Row) : Prop := ∀ r ∈ rows, r.blockHash.chars ≠ []

theorem named_epoch (now : BitVec 64) : Named [epochRow now] := by
  intro r hr
  rw [List.mem_singleton.mp hr]
  exact List.cons_ne_nil _ _

/-- What `strcmp` meets first in the two hash fields of a mined block. -/
structure Block.Heads (b : Block) : Prop where
  previousHash : ∃ c more, b.arrays.bytes = c :: more ∧ c ≠ 0
  blockHash : ∃ more, b.arrays.bytes.drop At.blockHash = 0 :: more

theorem Block.Sealed.starts {b b' : Block} {nonce : BitVec 32} {newHash : Digest}
    (h : b.Sealed nonce newHash b') {text : CString} (hPrevious : b.previousHash = some text)
    (hText : text.chars ≠ []) : ∃ c more, b'.arrays.bytes = c :: more ∧ c ≠ 0 := by
  obtain ⟨rest, hBytes⟩ := exists_of_scan hPrevious
  obtain ⟨c, chars, hChars⟩ := List.exists_cons_of_ne_nil hText
  have hc : c ≠ 0 := by
    rintro rfl
    exact text.noNul (hChars ▸ List.mem_cons_self)
  have hArrays := h.arrays
  rw [List.drop_zero] at hBytes
  rw [hBytes, hChars] at hArrays
  cases hFinal : b'.arrays.bytes with
  | nil =>
    rw [hFinal] at hArrays
    cases hArrays
  | cons d more =>
    rw [hFinal] at hArrays
    refine ⟨d, more, rfl, ?_⟩
    rw [(List.cons.inj hArrays).1]
    exact hc

theorem Named.insertRow {rows : List Row} (h : Named rows) {row : Row} {newHash : Digest}
    (hRow : row.blockHash = hexText newHash.bytes) : Named (insertRow rows row) := by
  intro r hr
  rcases mem_insertRow hr with hOld | rfl
  · exact h r hOld
  · intro hEmpty
    have hLength := le_length_hexText newHash.bytes
    rw [← hRow, CString.length, hEmpty] at hLength
    cases hLength

theorem mine_heads {call : Call} {rows rows' : List Row} {b : Block}
    (h : mine sha384 sqlite call rows = some (b, rows'))
    (hSucceeds : call.Succeeds sha384 sqlite rows) (hRows : rows ≠ []) (hNamed : Named rows) :
    b.Heads ∧ rows' ≠ [] ∧ Named rows' := by
  obtain ⟨started, r, pool, b₀, nonce, newHash, hStart, hNewest, hPrepared, hSealed, hMined,
    row, rfl, hRow⟩ := mine_block h hSucceeds
  obtain rfl : started = rows :=
    Option.some.inj (hStart.symm.trans (startBlockchain_of_ne_nil _ _ _ hRows))
  have hText := hNamed r (Sqlite.mem_of_newest hNewest)
  exact ⟨⟨hSealed.starts hPrepared.previousHash hText, hSealed.drop_blockHash hMined⟩,
    ne_nil_of_mem_insertRow hRows row, hNamed.insertRow hRow⟩

theorem validateLinks_of_heads {previous b : Block} (hPrevious : previous.Heads) (h : b.Heads)
    (rest : List Block) : validateLinks previous (b :: rest) = some 0 := by
  obtain ⟨more, hNul⟩ := hPrevious.blockHash
  obtain ⟨c, more', hBytes, hc⟩ := h.previousHash
  have hStrcmp : strcmpZero (b.arrays.bytes.drop At.previousHash)
      (previous.arrays.bytes.drop At.blockHash) = some false := by
    rw [hNul, List.drop_zero, hBytes]
    exact if_pos hc
  rw [validateLinks, hStrcmp]
  rfl

theorem validateLinks_of_strings {previous b : Block} {text : CString}
    (hPrevious : previous.arrays.string At.blockHash = some text)
    (h : b.previousHash = some text) (rest : List Block) :
    validateLinks previous (b :: rest) = validateLinks b rest := by
  have hStrcmp := strcmpZero_of_scan h hPrevious
  rw [decide_eq_true rfl] at hStrcmp
  rw [validateLinks, hStrcmp]
  rfl

theorem readable_of_mineAll {calls : List Call} {rows rows' : List Row} {blocks : List Block}
    (h : mineAll sha384 sqlite calls rows = some (blocks, rows')) :
    blocks.length = calls.length ∧ ∀ call ∈ calls, call.Readable := by
  induction calls generalizing rows blocks rows' with
  | nil =>
    cases h
    exact ⟨rfl, fun call hCall => absurd hCall List.not_mem_nil⟩
  | cons call rest ih =>
    obtain ⟨⟨b, middle⟩, hMine, h⟩ := Option.bind_eq_some_iff.mp h
    obtain ⟨⟨bs, last⟩, hRest, h⟩ := Option.bind_eq_some_iff.mp h
    cases h
    obtain ⟨hLength, hReadable⟩ := ih hRest
    refine ⟨congrArg Nat.succ hLength, ?_⟩
    intro call' hCall
    rcases List.mem_cons.mp hCall with rfl | hTail
    · obtain ⟨started, _, hMine⟩ := Option.bind_eq_some_iff.mp hMine
      obtain ⟨b', hCreate, _⟩ := Option.bind_eq_some_iff.mp hMine
      obtain ⟨b₀, hNew, _⟩ := Option.bind_eq_some_iff.mp hCreate
      obtain ⟨r, pool, _, hPrepared⟩ := newBlock_prepared hNew
      exact ⟨pool, hPrepared.rows, hPrepared.fits⟩
    · exact hReadable call' hTail

theorem validate_two {genesis : Block} {first second : Call} {rest : List Call}
    {rows rows' : List Row} {blocks : List Block} (hRows : rows ≠ []) (hNamed : Named rows)
    (hSucceed : Along sha384 sqlite (Call.Succeeds sha384 sqlite) (first :: second :: rest) rows)
    (h : mineAll sha384 sqlite (first :: second :: rest) rows = some (blocks, rows')) :
    validateBlockchain (genesis :: blocks) ≠ some 1 := by
  obtain ⟨⟨b₁, rows₁⟩, hFirst, h⟩ := Option.bind_eq_some_iff.mp h
  obtain ⟨⟨bs, _⟩, h₂, h⟩ := Option.bind_eq_some_iff.mp h
  cases h
  obtain ⟨⟨b₂, rows₂⟩, hSecond, h₂⟩ := Option.bind_eq_some_iff.mp h₂
  obtain ⟨⟨bs', _⟩, _, h₂⟩ := Option.bind_eq_some_iff.mp h₂
  cases h₂
  obtain ⟨hHeads₁, hRows₁, hNamed₁⟩ := mine_heads hFirst hSucceed.1 hRows hNamed
  obtain ⟨hHeads₂, _, _⟩ := mine_heads hSecond (hSucceed.next hFirst).1 hRows₁ hNamed₁
  intro hAccepted
  obtain ⟨same, _, hAccepted⟩ := Option.bind_eq_some_iff.mp hAccepted
  split at hAccepted
  · rw [validateLinks_of_heads hHeads₁ hHeads₂] at hAccepted
    cases hAccepted
  · cases hAccepted

/-- Started on an empty database, with searches that succeed, calls of `mine` give a chain of
structs that `validate_blockchain` accepts exactly if there is at most one of them and its
pool fits its block. -/
theorem honest_chain_validates_iff (sha384 : Hash) (sqlite : Sqlite) (uninit : Block)
    (structClock genesisClock : BitVec 64) (calls : List Call) :
    ∃ genesis rows, genesisBlock uninit (genesisClock - 1) = some genesis ∧
      startBlockchain uninit structClock genesisClock [] = some rows ∧
      (Along sha384 sqlite (Call.Succeeds sha384 sqlite) calls rows →
        ((∃ blocks rows', mineAll sha384 sqlite calls rows = some (blocks, rows') ∧
          validateBlockchain (genesis :: blocks) = some 1) ↔
        calls.length ≤ 1 ∧ ∀ call ∈ calls, call.Readable)) := by
  obtain ⟨genesis, hGenesis, _, hHash, _⟩ := exists_genesisBlock uninit (genesisClock - 1)
  refine ⟨genesis, _, hGenesis, startBlockchain_nil uninit structClock genesisClock, ?_⟩
  have hRows : [epochRow genesisClock] ≠ [] := List.cons_ne_nil _ _
  intro hSucceed
  constructor
  · rintro ⟨blocks, rows', hMine, hAccepted⟩
    refine ⟨?_, (readable_of_mineAll hMine).2⟩
    rcases calls with _ | ⟨first, _ | ⟨second, rest⟩⟩
    · exact Nat.zero_le _
    · exact Nat.le_refl _
    · exact absurd hAccepted (validate_two hRows (named_epoch _) hSucceed hMine)
  · rintro ⟨hLength, hReadable⟩
    rcases calls with _ | ⟨call, _ | ⟨second, rest⟩⟩
    · exact ⟨[], _, rfl, rfl⟩
    · have hEpoch : EPOCH.length ≤ 96 := by decide
      obtain ⟨b, pool, nonce, newHash, hMine, _, _, hPrevious, _⟩ :=
        exists_mine (startBlockchain_of_ne_nil _ _ _ hRows) (sqlite.newest_singleton _)
          (hReadable call List.mem_cons_self) hEpoch hSucceed.1
      exact ⟨[b], _, mineAll_cons hMine rfl, validateLinks_of_strings hHash hPrevious []⟩
    · simp at hLength

def zeroDigest : Digest := ⟨List.replicate 48 0, List.length_replicate⟩

def oneDigest : Digest := ⟨List.replicate 48 1, List.length_replicate⟩

def zeroBlock : Block := ⟨0, ⟨List.replicate 20271 0, List.length_replicate⟩, 0, 0, 0⟩

/-- A call with an empty pool, the last of whose three readings of the clock is `now`. -/
def callAt (now : BitVec 64) : Call := ⟨zeroBlock, now - 2, now - 1, some [], zeroBlock, now⟩

theorem callAt_readable (now : BitVec 64) : (callAt now).Readable := ⟨[], rfl, by decide⟩

theorem honest_chain_validates_one :
    let sha384 : Hash := fun _ => zeroDigest
    ∃ genesis rows, genesisBlock zeroBlock (1000 - 1) = some genesis ∧
      startBlockchain zeroBlock 1000 1000 [] = some rows ∧
      Along sha384 Sqlite.first (Call.Succeeds sha384 Sqlite.first) [callAt 1001] rows ∧
      ∃ blocks rows', mineAll sha384 Sqlite.first [callAt 1001] rows = some (blocks, rows') ∧
        validateBlockchain (genesis :: blocks) = some 1 := by
  intro sha384
  have hEasy : ∀ data, (sha384 data).Mined := fun _ => by decide
  obtain ⟨genesis, rows, hGenesis, hStart, hIff⟩ :=
    honest_chain_validates_iff sha384 Sqlite.first zeroBlock 1000 1000 [callAt 1001]
  have hRows := hStart.symm.trans (startBlockchain_nil zeroBlock 1000 1000)
  have hShort : Short rows := Option.some.inj hRows ▸ short_epoch _
  have hSucceed := along_of_easy Sqlite.first hEasy [callAt 1001] hShort
  refine ⟨genesis, rows, hGenesis, hStart, hSucceed, (hIff hSucceed).mpr ⟨Nat.le_refl _, ?_⟩⟩
  intro call hCall
  rw [List.mem_singleton.mp hCall]
  exact callAt_readable 1001

theorem honest_chain_rejected :
    let sha384 : Hash := fun _ => zeroDigest
    ∃ genesis rows, genesisBlock zeroBlock (1000 - 1) = some genesis ∧
      startBlockchain zeroBlock 1000 1000 [] = some rows ∧
      Along sha384 Sqlite.first (Call.Succeeds sha384 Sqlite.first) [callAt 1001, callAt 1002]
        rows ∧
      ∃ blocks rows', mineAll sha384 Sqlite.first [callAt 1001, callAt 1002] rows =
          some (blocks, rows') ∧
        validateBlockchain (genesis :: blocks) = some 0 := by
  intro sha384
  have hEasy : ∀ data, (sha384 data).Mined := fun _ => by decide
  obtain ⟨genesis, hGenesis, _, hHash, _⟩ := exists_genesisBlock zeroBlock (1000 - 1)
  have hRows : [epochRow 1000] ≠ [] := List.cons_ne_nil _ _
  have hSucceed := along_of_easy Sqlite.first hEasy [callAt 1001, callAt 1002]
    (short_epoch 1000)
  have hEpoch : EPOCH.length ≤ 96 := by decide
  obtain ⟨b₁, pool₁, nonce₁, newHash₁, hFirst, _, ⟨data, rfl⟩, hPrevious, _⟩ :=
    exists_mine (startBlockchain_of_ne_nil _ _ _ hRows) (Sqlite.first.newest_singleton _)
      (callAt_readable 1001) hEpoch hSucceed.1
  obtain ⟨hHeads₁, hRows₁, hNamed₁⟩ := mine_heads hFirst hSucceed.1 hRows (named_epoch _)
  have hSucceeds₂ := (hSucceed.next hFirst).1
  obtain ⟨r, hMem, hNewest, _⟩ := Sqlite.first.newest_of_ne_nil _ hRows₁
  have hText : r.blockHash.length ≤ 96 := by
    rcases mem_insertRow hMem with hOld | rfl
    · rw [List.mem_singleton.mp hOld]
      exact hEpoch
    · have hZeros : (hexText zeroDigest.bytes).length ≤ 96 := by decide +kernel
      exact hZeros
  obtain ⟨b₂, pool₂, nonce₂, newHash₂, hSecond, _⟩ :=
    exists_mine (startBlockchain_of_ne_nil _ _ _ hRows₁) hNewest (callAt_readable 1002) hText
      hSucceeds₂
  obtain ⟨hHeads₂, _, _⟩ := mine_heads hSecond hSucceeds₂ hRows₁ hNamed₁
  refine ⟨genesis, _, hGenesis, startBlockchain_nil _ _ _, hSucceed, [b₁, b₂], _,
    mineAll_cons hFirst (mineAll_cons hSecond rfl), ?_⟩
  exact (validateLinks_of_strings hHash hPrevious [b₂]).trans
    (validateLinks_of_heads hHeads₁ hHeads₂ [])

/-! ## Changing a block -/

def Block.SameHashed (b b' : Block) : Prop :=
  b.previousHash = b'.previousHash ∧ b.timestamp = b'.timestamp ∧
    b.transactionCount = b'.transactionCount ∧ b.transactionBundle = b'.transactionBundle ∧
    b.nonce = b'.nonce ∧ b.blockHash = b'.blockHash

def CollisionFree (sha384 : Hash) (blocks : List Block) : Prop :=
  ∀ b ∈ blocks, ∀ b' ∈ blocks, ∀ data data', b.data 29999 (some b.nonce) = some data →
    b'.data 29999 (some b'.nonce) = some data' → sha384 data.chars = sha384 data'.chars →
    data = data'

/-- Two chains of one length that are both accepted and end alike are alike. -/
def TamperEvident (sha384 : Hash) (chain chain' : List Block) : Prop :=
  chain.length = chain'.length → CollisionFree sha384 (chain ++ chain') →
    validateBlockchain chain = some 1 → validateBlockchain chain' = some 1 →
    chain.getLast? = chain'.getLast? → List.Forall₂ Block.SameHashed chain chain'

/-- The two strings that are compared, which start at the raw hash and at the text of it. -/
def Block.Linked (previous b : Block) : Prop :=
  ∃ text, b.previousHash = some text ∧ previous.arrays.string At.blockHash = some text

def Broken (chain : List Block) : Prop :=
  ∃ i, ∃ h : i + 1 < chain.length, ¬chain[i].Linked chain[i + 1]

/-- Alike where no comparison ties one block to the next: everywhere but in `block_hash` up to its
first NUL. -/
structure Block.SameUntied (b b' : Block) : Prop where
  previousHash : b.previousHash = b'.previousHash
  timestamp : b.timestamp = b'.timestamp
  transactionCount : b.transactionCount = b'.transactionCount
  transactionBundle : b.transactionBundle = b'.transactionBundle
  nonce : b.nonce = b'.nonce
  blockHash : b.blockHash.dropWhile (· ≠ 0) = b'.blockHash.dropWhile (· ≠ 0)

theorem broken_iff (chain : List Block) : Broken chain ↔ ¬chain.IsChain Block.Linked := by
  rw [List.isChain_iff_getElem, Broken]
  push Not
  rfl

theorem validateLinks_eq_one_iff (previous : Block) (rest : List Block) :
    validateLinks previous rest = some 1 ↔ (previous :: rest).IsChain Block.Linked := by
  induction rest generalizing previous with
  | nil => exact ⟨fun _ => .singleton _, fun _ => rfl⟩
  | cons b rest ih =>
    rw [List.isChain_cons_cons, ← ih b]
    constructor
    · intro h
      obtain ⟨same, hStrcmp, h⟩ := Option.bind_eq_some_iff.mp h
      split at h
      · rename_i hSame
        obtain ⟨text, hText, hPrevious⟩ := exists_of_strcmpZero (hStrcmp.trans (congrArg some hSame))
        exact ⟨⟨text, hText, hPrevious⟩, h⟩
      · cases h
    · rintro ⟨⟨text, hText, hPrevious⟩, hRest⟩
      rw [validateLinks_of_strings hPrevious hText]
      exact hRest

theorem validateBlockchain_eq_one_iff (chain : List Block) :
    validateBlockchain chain = some 1 ↔ ¬Broken chain := by
  rw [broken_iff, not_not]
  cases chain with
  | nil => exact ⟨fun _ => .nil, fun _ => rfl⟩
  | cons b rest => exact validateLinks_eq_one_iff b rest

theorem Block.Linked.takeWhile_blockHash {previous b : Block} (h : previous.Linked b) :
    ∃ text, b.previousHash = some text ∧
      previous.blockHash.takeWhile (· ≠ 0) = text.chars.take 48 := by
  obtain ⟨text, hText, hPrevious⟩ := h
  refine ⟨text, hText, ?_⟩
  rw [Block.blockHash, ← List.take_takeWhile, takeWhile_of_scan hPrevious]

/-- Over the next block the read part of `block_hash` is tied to that block's `previous_hash`. -/
theorem Block.SameUntied.sameHashed {p p' b b' : Block} (h : p.SameUntied p') (hLink : p.Linked b)
    (hLink' : p'.Linked b') (hNext : b.previousHash = b'.previousHash) : p.SameHashed p' := by
  obtain ⟨text, hText, hRead⟩ := hLink.takeWhile_blockHash
  obtain ⟨text', hText', hRead'⟩ := hLink'.takeWhile_blockHash
  have hSame : text = text' := Option.some.inj (hText.symm.trans (hNext.trans hText'))
  refine ⟨h.previousHash, h.timestamp, h.transactionCount, h.transactionBundle, h.nonce, ?_⟩
  rw [← List.takeWhile_append_dropWhile (p := (· ≠ 0)) (l := p.blockHash),
    ← List.takeWhile_append_dropWhile (p := (· ≠ 0)) (l := p'.blockHash), hRead, hRead', hSame,
    h.blockHash]

theorem Block.SameHashed.sameUntied {b b' : Block} (h : b.SameHashed b') : b.SameUntied b' := by
  obtain ⟨hPrevious, hTime, hCount, hBundle, hNonce, hHash⟩ := h
  exact ⟨hPrevious, hTime, hCount, hBundle, hNonce, congrArg _ hHash⟩

theorem forall₂_dropLast {chain chain' : List Block}
    (h : List.Forall₂ Block.SameHashed chain chain') :
    List.Forall₂ Block.SameUntied chain.dropLast chain'.dropLast := by
  rw [List.dropLast_eq_take, List.dropLast_eq_take, h.length_eq]
  exact (List.forall₂_take _ h).imp fun _ _ hSame => hSame.sameUntied

theorem forall₂_of_untied {chain chain' : List Block} (hChain : chain.IsChain Block.Linked)
    (hChain' : chain'.IsChain Block.Linked) (hLength : chain.length = chain'.length)
    (hLast : chain.getLast? = chain'.getLast?)
    (h : List.Forall₂ Block.SameUntied chain.dropLast chain'.dropLast) :
    List.Forall₂ Block.SameHashed chain chain' := by
  induction chain generalizing chain' with
  | nil =>
    rw [List.eq_nil_of_length_eq_zero hLength.symm]
    exact .nil
  | cons p rest ih =>
    obtain ⟨p', rest', rfl⟩ := List.exists_cons_of_length_eq_add_one hLength.symm
    have hRest : rest.length = rest'.length := Nat.succ.inj hLength
    rcases rest with _ | ⟨b, more⟩
    · obtain rfl := List.eq_nil_of_length_eq_zero hRest.symm
      obtain rfl : p = p' := Option.some.inj hLast
      exact .cons ⟨rfl, rfl, rfl, rfl, rfl, rfl⟩ .nil
    · obtain ⟨b', more', rfl⟩ := List.exists_cons_of_length_eq_add_one hRest.symm
      rw [List.isChain_cons_cons] at hChain hChain'
      rw [List.getLast?_cons_cons, List.getLast?_cons_cons] at hLast
      cases h with
      | cons hHead hTail =>
        have hSame := ih hChain.2 hChain'.2 hRest hLast hTail
        cases hSame with
        | cons hNext hMore =>
          exact .cons (hHead.sameHashed hChain.1 hChain'.1 hNext.1) (.cons hNext hMore)

/-- Of two chains of one length, over whose blocks the hash has no collision, the last block fixes the
others exactly if a comparison fails, the last blocks differ, or the chains are alike in all that the
comparisons leave open. -/
theorem tamperEvident_iff (sha384 : Hash) (chain chain' : List Block)
    (hLength : chain.length = chain'.length) (hFree : CollisionFree sha384 (chain ++ chain')) :
    TamperEvident sha384 chain chain' ↔
      Broken chain ∨ Broken chain' ∨ chain.getLast? ≠ chain'.getLast? ∨
        List.Forall₂ Block.SameUntied chain.dropLast chain'.dropLast := by
  rw [TamperEvident, validateBlockchain_eq_one_iff, validateBlockchain_eq_one_iff]
  constructor
  · intro h
    by_cases hChain : Broken chain
    · exact .inl hChain
    by_cases hChain' : Broken chain'
    · exact .inr (.inl hChain')
    by_cases hLast : chain.getLast? = chain'.getLast?
    · exact .inr (.inr (.inr (forall₂_dropLast (h hLength hFree hChain hChain' hLast))))
    · exact .inr (.inr (.inl hLast))
  · rintro h - - hChain hChain' hLast
    have hUntied := ((h.resolve_left hChain).resolve_left hChain').resolve_left (not_not.mpr hLast)
    rw [broken_iff, not_not] at hChain hChain'
    exact forall₂_of_untied hChain hChain' hLength hLast hUntied

/-! ### Blocks of zero bytes -/

def laterBlock : Block := { zeroBlock with timestamp := 1 }

def rehashedBlock : Block := zeroBlock.setHash oneDigest

def twoHash : Hash := fun data => if data = [48, 48, 48, 48] then zeroDigest else oneDigest

theorem collisionFree_twoHash {blocks : List Block}
    (h : ∀ b ∈ blocks, b = zeroBlock ∨ b = rehashedBlock ∨ b = laterBlock) :
    CollisionFree twoHash blocks := by
  have hZero : zeroBlock.data 29999 (some zeroBlock.nonce) =
      some ⟨[48, 48, 48, 48], by decide⟩ := by decide +kernel
  have hRehashed : rehashedBlock.data 29999 (some rehashedBlock.nonce) =
      some ⟨[48, 48, 48, 48], by decide⟩ := by decide +kernel
  have hLater : laterBlock.data 29999 (some laterBlock.nonce) =
      some ⟨[48, 49, 48, 48], by decide⟩ := by decide +kernel
  have hTexts : ∀ b ∈ blocks, ∀ data, b.data 29999 (some b.nonce) = some data →
      data.chars = [48, 48, 48, 48] ∨ data.chars = [48, 49, 48, 48] := by
    intro b hb data hData
    rcases h b hb with rfl | rfl | rfl
    · exact .inl (Option.some.inj (hData.symm.trans hZero) ▸ rfl)
    · exact .inl (Option.some.inj (hData.symm.trans hRehashed) ▸ rfl)
    · exact .inr (Option.some.inj (hData.symm.trans hLater) ▸ rfl)
  intro b hb b' hb' data data' hData hData' hHash
  apply CString.ext
  rcases hTexts b hb data hData with hText | hText <;>
    rcases hTexts b' hb' data' hData' with hText' | hText' <;> rw [hText, hText'] at hHash ⊢
  · exact absurd hHash (by decide)
  · exact absurd hHash (by decide)

/-- The hash of the first block is changed, and the link to the second one is broken. -/
theorem tamperEvident_rehashed :
    Broken [rehashedBlock, zeroBlock] ∧
      TamperEvident twoHash [zeroBlock, zeroBlock] [rehashedBlock, zeroBlock] := by
  have hBroken : Broken [rehashedBlock, zeroBlock] := by
    refine ⟨0, by decide, ?_⟩
    rintro ⟨text, hText, hPrevious⟩
    have hStrcmp := strcmpZero_of_scan hText hPrevious
    have hDiffers : strcmpZero (zeroBlock.arrays.bytes.drop At.previousHash)
        (rehashedBlock.arrays.bytes.drop At.blockHash) = some false := by decide +kernel
    rw [decide_eq_true rfl] at hStrcmp
    cases hStrcmp.symm.trans hDiffers
  have hFree : CollisionFree twoHash ([zeroBlock, zeroBlock] ++ [rehashedBlock, zeroBlock]) := by
    apply collisionFree_twoHash
    intro b hb
    simp only [List.cons_append, List.nil_append, List.mem_cons, List.not_mem_nil, or_false] at hb
    rcases hb with rfl | rfl | rfl | rfl
    · exact .inl rfl
    · exact .inl rfl
    · exact .inr (.inl rfl)
    · exact .inl rfl
  exact ⟨hBroken, (tamperEvident_iff twoHash [zeroBlock, zeroBlock] [rehashedBlock, zeroBlock] rfl
    hFree).mpr (.inr (.inl hBroken))⟩

/-- The first of two blocks is changed and nothing is noticed. -/
theorem tampered_chain_accepted :
    CollisionFree twoHash ([zeroBlock, zeroBlock] ++ [laterBlock, zeroBlock]) ∧
      validateBlockchain [zeroBlock, zeroBlock] = some 1 ∧
      validateBlockchain [laterBlock, zeroBlock] = some 1 ∧
      [zeroBlock, zeroBlock].getLast? = [laterBlock, zeroBlock].getLast? ∧
      ¬List.Forall₂ Block.SameHashed [zeroBlock, zeroBlock] [laterBlock, zeroBlock] := by
  refine ⟨collisionFree_twoHash ?_, rfl, rfl, rfl, ?_⟩
  · intro b hb
    simp only [List.cons_append, List.nil_append, List.mem_cons, List.not_mem_nil,
      or_false] at hb
    rcases hb with rfl | rfl | rfl | rfl
    · exact .inl rfl
    · exact .inl rfl
    · exact .inr (.inr rfl)
    · exact .inl rfl
  · intro h
    cases h with
    | cons hHead _ => exact absurd hHead.2.1 (by decide)

end Manhattan.Chain
