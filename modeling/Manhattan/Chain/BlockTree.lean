import Manhattan.Chain.LinearChain

/-! # The table of blocks over whole runs

Whatever the clocks say and whatever is in the pool, `blocks` is a tree whose root is the genesis
row. A call of `mine` adds at most one row, on top of a row with the greatest timestamp, and changes
none; of a text longer than `previous_hash` the first 96 characters are left there.
-/

namespace Manhattan.Chain

open Library.CStrings

variable {sha384 : Hash} {sqlite : Sqlite}

/-- `row` is on top of `r`. -/
def OnTopOf (row r : Row) : Prop := row.previousHash = r.blockHash.take 96

/-- What `add_block` puts behind `rows` -/
structure Extends (sha384 : Hash) (rows : List Row) (row : Row) : Prop where
  parent : ∃ r ∈ rows, OnTopOf row r ∧ ∀ other ∈ rows, other.timestamp ≤ r.timestamp
  work : ∃ data, (sha384 data).Mined ∧ row.blockHash = hexText (sha384 data).bytes
  fresh : row.blockHash ∉ rows.map Row.blockHash

inductive Tree (sha384 : Hash) : List Row → Prop
  | genesis (now : BitVec 64) : Tree sha384 [epochRow now]
  | add {rows : List Row} {row : Row} (tree : Tree sha384 rows)
      (extends_ : Extends sha384 rows row) : Tree sha384 (rows ++ [row])

/-! ## A tree of rows -/

theorem Tree.exists_epoch {rows : List Row} (h : Tree sha384 rows) :
    ∃ now more, rows = epochRow now :: more := by
  induction h with
  | genesis now => exact ⟨now, [], rfl⟩
  | @add rows row tree hExtends ih =>
    obtain ⟨now, more, rfl⟩ := ih
    exact ⟨now, more ++ [row], rfl⟩

theorem Tree.nodup {rows : List Row} (h : Tree sha384 rows) :
    (rows.map Row.blockHash).Nodup := by
  induction h with
  | genesis now => exact List.nodup_singleton _
  | add tree hExtends ih =>
    rw [List.map_append, List.map_singleton, List.nodup_append]
    refine ⟨ih, List.nodup_singleton _, ?_⟩
    rintro text hText _ hNew rfl
    exact hExtends.fresh (List.mem_singleton.mp hNew ▸ hText)

theorem Tree.getElem {rows : List Row} (h : Tree sha384 rows) (i : Nat) (hPos : 0 < i)
    (hi : i < rows.length) : Extends sha384 (rows.take i) rows[i] := by
  induction h with
  | genesis now =>
    rw [List.length_singleton] at hi
    omega
  | @add rows row tree hExtends ih =>
    rw [List.length_append, List.length_singleton] at hi
    obtain hBefore | rfl := Nat.lt_succ_iff_lt_or_eq.mp hi
    · rw [List.take_append_of_le_length hBefore.le, List.getElem_append_left hBefore]
      exact ih hBefore
    · rw [List.take_left, List.getElem_concat_length rfl]
      exact hExtends

/-- The row `row` is reached from the genesis row by rows that are on top of each other. -/
def Descends (rows : List Row) (row : Row) : Prop :=
  ∃ now, epochRow now ∈ rows ∧
    Relation.ReflTransGen (fun r r' => r ∈ rows ∧ r' ∈ rows ∧ OnTopOf r' r) (epochRow now) row

theorem Descends.mono {rows : List Row} {row : Row} (h : Descends rows row) (last : Row) :
    Descends (rows ++ [last]) row := by
  obtain ⟨now, hEpoch, hPath⟩ := h
  refine ⟨now, List.mem_append_left _ hEpoch, Relation.ReflTransGen.mono ?_ _ _ hPath⟩
  rintro r r' ⟨hr, hr', hTop⟩
  exact ⟨List.mem_append_left _ hr, List.mem_append_left _ hr', hTop⟩

theorem Tree.descends {rows : List Row} (h : Tree sha384 rows) :
    ∀ row ∈ rows, Descends rows row := by
  induction h with
  | genesis now =>
    intro row hRow
    rw [List.mem_singleton.mp hRow]
    exact ⟨now, List.mem_singleton.mpr rfl, .refl⟩
  | @add rows last tree hExtends ih =>
    intro row hRow
    obtain hOld | hNew := List.mem_append.mp hRow
    · exact (ih row hOld).mono last
    · obtain rfl := List.mem_singleton.mp hNew
      obtain ⟨r, hr, hTop, -⟩ := hExtends.parent
      obtain ⟨now, hEpoch, hPath⟩ := (ih r hr).mono row
      exact ⟨now, hEpoch, hPath.tail ⟨List.mem_append_left _ hr, hRow, hTop⟩⟩

/-! ## One call -/

/-- What is left of a text that runs over `previous_hash` into the mined hash behind it -/
theorem Block.Sealed.previousHash_take {b b' : Block} {nonce : BitVec 32} {newHash : Digest}
    (h : b.Sealed nonce newHash b') (hMined : newHash.Mined) {text : CString}
    (hPrevious : b.previousHash = some text) : b'.previousHash = some (text.take 96) := by
  obtain hFits | hLong := Nat.le_total text.length 96
  · rw [CString.take_of_length_le hFits]
    exact h.previousHash hMined hPrevious hFits
  · obtain ⟨more, hMore⟩ := h.drop_blockHash hMined
    have hFront : b.arrays.bytes.take At.blockHash = (text.take 96).chars :=
      take_of_scan hPrevious hLong
    have hBytes : b'.arrays.bytes = (text.take 96).chars ++ 0 :: more := by
      rw [← hFront, ← h.arrays, ← hMore, List.take_append_drop]
    rw [Block.previousHash, Region.string, List.drop_zero, hBytes]
    exact scan_terminated _ _

theorem addBlock_sealed {call : Call} {pool : List (List CString)} {text : CString}
    {b₀ b : Block} {nonce : BitVec 32} {newHash : Digest} (hPrepared : call.Prepared pool text b₀)
    (hSealed : b₀.Sealed nonce newHash b) (hMined : newHash.Mined) (hText : text.length < 272)
    (rows : List Row) :
    addBlock b rows = some (insertRow rows (call.row (text.take 96) pool nonce newHash)) := by
  have hBundle := hSealed.bundle.trans (hPrepared.bundle hText)
  have hPrevious := hSealed.previousHash_take hMined hPrepared.previousHash
  simp only [addBlock, hSealed.hex, hPrevious, hBundle, hSealed.nonce, hSealed.timestamp,
    hPrepared.timestamp, hSealed.transactionCount, hPrepared.transactionCount,
    Option.bind_eq_bind, Option.bind_some]
  rfl

theorem mine_row {call : Call} {rows rows' : List Row} {b : Block} (hShort : Short rows)
    (hSucceeds : call.Succeeds sha384 sqlite rows)
    (h : mine sha384 sqlite call rows = some (b, rows')) :
    ∃ started r pool nonce data, call.start rows = some started ∧
      sqlite.newest started = some r ∧ (sha384 data).Mined ∧
      rows' = insertRow started (call.row (r.blockHash.take 96) pool nonce (sha384 data)) := by
  obtain ⟨started, hStart, h⟩ := Option.bind_eq_some_iff.mp h
  obtain ⟨b', hCreate, h⟩ := Option.bind_eq_some_iff.mp h
  obtain ⟨rows'', hAdd, h⟩ := Option.bind_eq_some_iff.mp h
  cases h
  obtain ⟨b₀, hNew, hHash⟩ := Option.bind_eq_some_iff.mp hCreate
  obtain ⟨r, pool, hNewest, hPrepared⟩ := newBlock_prepared hNew
  obtain ⟨nonce, newHash, hFound⟩ := hSucceeds started b₀ hStart hNew
  obtain ⟨first, hFirst, -⟩ := Option.bind_eq_some_iff.mp hHash
  obtain ⟨sealedBlock, hHash', hSealed⟩ := hashBlock_sealed hFirst hFound
  obtain rfl := Option.some.inj (hHash.symm.trans hHash')
  obtain ⟨⟨data, -, rfl⟩, hMined, -⟩ := Block.search_found hFound
  have hText := call.start_short hShort hStart r (Sqlite.mem_of_newest hNewest)
  rw [addBlock_sealed hPrepared hSealed hMined (by omega)] at hAdd
  exact ⟨started, r, pool, nonce, data.chars, hStart, hNewest, hMined,
    (Option.some.inj hAdd).symm⟩

theorem exists_mine_of_short {call : Call} {rows started : List Row} (hShort : Short rows)
    (hStart : call.start rows = some started) (hStarted : started ≠ [])
    (hReadable : call.Readable) (hSucceeds : call.Succeeds sha384 sqlite rows) :
    ∃ b rows', mine sha384 sqlite call rows = some (b, rows') := by
  obtain ⟨r, hMem, hNewest, -⟩ := sqlite.newest_of_ne_nil started hStarted
  have hText := call.start_short hShort hStart r hMem
  obtain ⟨b₀, hNew⟩ := exists_newBlock hReadable hNewest (by omega)
  obtain ⟨r', pool, hNewest', hPrepared⟩ := newBlock_prepared hNew
  obtain rfl := Option.some.inj (hNewest.symm.trans hNewest')
  obtain ⟨nonce, newHash, hFound⟩ := hSucceeds started b₀ hStart hNew
  obtain ⟨first, hFirst⟩ := hPrepared.exists_data (by omega) none
  obtain ⟨b, hHash, hSealed⟩ := hashBlock_sealed hFirst hFound
  have hAdd := addBlock_sealed hPrepared hSealed (Block.search_found hFound).2.1 (by omega) started
  refine ⟨b, insertRow started (call.row (r.blockHash.take 96) pool nonce newHash), ?_⟩
  simp only [mine, hStart, createBlock, hNew, hHash, hAdd, Option.bind_eq_bind, Option.bind_some]
  rfl

theorem extends_row {call : Call} {rows : List Row} {r : Row} {pool : List (List CString)}
    {nonce : BitVec 32} {data : List Byte} (hNewest : sqlite.newest rows = some r)
    (hMined : (sha384 data).Mined)
    (hFresh : hexText (sha384 data).bytes ∉ rows.map Row.blockHash) :
    Extends sha384 rows (call.row (r.blockHash.take 96) pool nonce (sha384 data)) where
  parent := by
    have hRows : rows ≠ [] := List.ne_nil_of_mem (Sqlite.mem_of_newest hNewest)
    obtain ⟨r', hMem, hNewest', hGreatest⟩ := sqlite.newest_of_ne_nil rows hRows
    obtain rfl := Option.some.inj (hNewest.symm.trans hNewest')
    exact ⟨r, hMem, rfl, hGreatest⟩
  work := ⟨data, hMined, rfl⟩
  fresh := hFresh

theorem Tree.start {call : Call} {rows started : List Row} (h : rows = [] ∨ Tree sha384 rows)
    (hStart : call.start rows = some started) : rows <+: started ∧ Tree sha384 started := by
  obtain rfl | hTree := h
  · rw [Call.start, startBlockchain_nil] at hStart
    obtain rfl := Option.some.inj hStart
    exact ⟨List.nil_prefix, .genesis _⟩
  · obtain ⟨now, more, rfl⟩ := hTree.exists_epoch
    rw [Call.start, startBlockchain_of_ne_nil _ _ _ (List.cons_ne_nil _ _)] at hStart
    obtain rfl := Option.some.inj hStart
    exact ⟨List.prefix_rfl, hTree⟩

theorem Tree.short {rows : List Row} (h : Tree sha384 rows) : Short rows := by
  induction h with
  | genesis now => exact short_epoch now
  | add tree hExtends ih =>
    intro r hr
    obtain hOld | hNew := List.mem_append.mp hr
    · exact ih r hOld
    · obtain ⟨data, -, hText⟩ := hExtends.work
      rw [List.mem_singleton.mp hNew, hText]
      exact length_hexText_le _

theorem Tree.mine {call : Call} {rows rows' : List Row} {b : Block}
    (h : rows = [] ∨ Tree sha384 rows) (hSucceeds : call.Succeeds sha384 sqlite rows)
    (hMine : mine sha384 sqlite call rows = some (b, rows')) :
    rows <+: rows' ∧ Tree sha384 rows' := by
  have hShort : Short rows := h.elim (fun hEmpty => hEmpty ▸ short_nil) Tree.short
  obtain ⟨started, r, pool, nonce, data, hStart, hNewest, hMined, rfl⟩ :=
    mine_row hShort hSucceeds hMine
  obtain ⟨hFront, hTree⟩ := Tree.start h hStart
  rw [insertRow]
  split
  · exact ⟨hFront, hTree⟩
  · rename_i hFresh
    exact ⟨hFront.trans (List.prefix_append _ _), hTree.add (extends_row hNewest hMined hFresh)⟩

/-! ## Runs -/

theorem mineAll_append {before after : List Call} {rows last : List Row} {blocks : List Block}
    (h : mineAll sha384 sqlite (before ++ after) rows = some (blocks, last)) :
    ∃ first middle second, mineAll sha384 sqlite before rows = some (first, middle) ∧
      mineAll sha384 sqlite after middle = some (second, last) ∧ blocks = first ++ second := by
  induction before generalizing rows blocks with
  | nil => exact ⟨[], rows, blocks, rfl, h, rfl⟩
  | cons call before ih =>
    obtain ⟨⟨b, next⟩, hMine, h⟩ := Option.bind_eq_some_iff.mp h
    obtain ⟨⟨more, last'⟩, hRest, h⟩ := Option.bind_eq_some_iff.mp h
    cases h
    obtain ⟨first, middle, second, hFirst, hSecond, rfl⟩ := ih hRest
    exact ⟨b :: first, middle, second, mineAll_cons hMine hFirst, hSecond, rfl⟩

theorem Tree.mineAll {calls : List Call} {rows rows' : List Row} {blocks : List Block}
    (h : Tree sha384 rows) (hSucceeds : Along sha384 sqlite (Call.Succeeds sha384 sqlite) calls rows)
    (hRun : mineAll sha384 sqlite calls rows = some (blocks, rows')) :
    rows <+: rows' ∧ Tree sha384 rows' := by
  induction calls generalizing rows blocks with
  | nil =>
    cases hRun
    exact ⟨List.prefix_rfl, h⟩
  | cons call calls ih =>
    obtain ⟨⟨b, next⟩, hMine, hRun⟩ := Option.bind_eq_some_iff.mp hRun
    obtain ⟨⟨more, last⟩, hRest, hRun⟩ := Option.bind_eq_some_iff.mp hRun
    cases hRun
    obtain ⟨hFront, hTree⟩ := Tree.mine (.inr h) hSucceeds.1 hMine
    obtain ⟨hFront', hTree'⟩ := ih hTree (hSucceeds.next hMine) hRest
    exact ⟨hFront.trans hFront', hTree'⟩

theorem run_of_mineAll {calls : List Call} {rows rows' : List Row} {blocks : List Block}
    (h : Chain.mineAll sha384 sqlite calls rows = some (blocks, rows')) :
    Library.Runs.run (mineStep sha384 sqlite) rows calls = some rows' := by
  induction calls generalizing rows blocks with
  | nil =>
    cases h
    rfl
  | cons call calls ih =>
    obtain ⟨⟨b, next⟩, hMine, h⟩ := Option.bind_eq_some_iff.mp h
    obtain ⟨⟨more, last⟩, hRest, h⟩ := Option.bind_eq_some_iff.mp h
    cases h
    exact Library.Runs.run_cons_eq_some.mpr
      ⟨next, mineStep_eq_some.mpr ⟨b, hMine⟩, ih hRest⟩

theorem head_mine {call : Call} {rows' : List Row} {b : Block}
    (hSucceeds : call.Succeeds sha384 sqlite [])
    (hMine : mine sha384 sqlite call [] = some (b, rows')) :
    [epochRow call.genesisClock] <+: rows' := by
  obtain ⟨started, r, pool, nonce, data, hStart, -, -, rfl⟩ := mine_row short_nil hSucceeds hMine
  rw [Call.start, startBlockchain_nil] at hStart
  obtain rfl := Option.some.inj hStart
  obtain hSame | hMore := insertRow_cases [epochRow call.genesisClock]
    (call.row (r.blockHash.take 96) pool nonce (sha384 data))
  · rw [hSame]
  · rw [hMore]
    exact List.prefix_append _ _

theorem Tree.exists_mineAll {calls : List Call} {rows : List Row}
    (h : rows = [] ∨ Tree sha384 rows) (hReadable : ∀ call ∈ calls, call.Readable)
    (hSucceeds : Along sha384 sqlite (Call.Succeeds sha384 sqlite) calls rows) :
    ∃ blocks rows', Chain.mineAll sha384 sqlite calls rows = some (blocks, rows') := by
  induction calls generalizing rows with
  | nil => exact ⟨[], rows, rfl⟩
  | cons call calls ih =>
    have hShort : Short rows := h.elim (fun hEmpty => hEmpty ▸ short_nil) Tree.short
    obtain ⟨started, hStart⟩ : ∃ started, call.start rows = some started := by
      obtain rfl | hRows := eq_or_ne rows []
      · exact ⟨_, startBlockchain_nil _ _ _⟩
      · exact ⟨_, startBlockchain_of_ne_nil _ _ _ hRows⟩
    obtain ⟨now, more, rfl⟩ := (Tree.start h hStart).2.exists_epoch
    obtain ⟨b, next, hMine⟩ := exists_mine_of_short hShort hStart (List.cons_ne_nil _ _)
      (hReadable call List.mem_cons_self) hSucceeds.1
    obtain ⟨blocks, rows', hRest⟩ := ih (.inr (Tree.mine h hSucceeds.1 hMine).2)
      (fun later hLater => hReadable later (List.mem_cons_of_mem _ hLater)) (hSucceeds.next hMine)
    exact ⟨b :: blocks, rows', mineAll_cons hMine hRest⟩

/-- From an empty database, for any clocks and any pools that can be read: every call completes, a
later table has the earlier one in front and no text twice, its first row is the genesis row, each
other row is on top of one of the newest rows before it and has a mined hash, and each descends from
the genesis row. -/
theorem blocks_tree (sha384 : Hash) (sqlite : Sqlite) (call : Call) (before after : List Call)
    (hReadable : ∀ c ∈ call :: before ++ after, c.Readable)
    (hSucceeds : Along sha384 sqlite (Call.Succeeds sha384 sqlite) (call :: before ++ after) []) :
    ∃ blocks rows first rows', mineAll sha384 sqlite (call :: before) [] = some (first, rows) ∧
      mineAll sha384 sqlite (call :: before ++ after) [] = some (blocks, rows') ∧
      rows <+: rows' ∧ (rows'.map Row.blockHash).Nodup ∧
      rows'.head? = some (epochRow call.genesisClock) ∧
      (∀ (i : Nat) (hi : i < rows'.length), 0 < i → Extends sha384 (rows'.take i) rows'[i]) ∧
      ∀ row ∈ rows', Descends rows' row := by
  obtain ⟨blocks, rows', hRun⟩ := Tree.exists_mineAll (.inl rfl) hReadable hSucceeds
  obtain ⟨first, rows, second, hFirst, hSecond, -⟩ := mineAll_append hRun
  have hBefore : Along sha384 sqlite (Call.Succeeds sha384 sqlite) (call :: before) [] :=
    hSucceeds.left
  have hAfter := hSucceeds.right (run_of_mineAll hFirst)
  obtain ⟨⟨b, next⟩, hMine, hRest⟩ := Option.bind_eq_some_iff.mp hFirst
  obtain ⟨⟨more, last⟩, hMore, hLast⟩ := Option.bind_eq_some_iff.mp hRest
  cases hLast
  obtain ⟨-, hTree⟩ := Tree.mine (.inl rfl) hBefore.1 hMine
  obtain ⟨hFront, hTree⟩ := hTree.mineAll (hBefore.next hMine) hMore
  obtain ⟨hFront', hTree⟩ := hTree.mineAll hAfter hSecond
  have hHead := ((head_mine hBefore.1 hMine).trans hFront).trans hFront'
  refine ⟨blocks, rows, b :: more, rows', hFirst, hRun, hFront', hTree.nodup, ?_, ?_,
    hTree.descends⟩
  · obtain ⟨rest, rfl⟩ := hHead
    rfl
  · intro i hi hPos
    exact hTree.getElem i hPos hi

theorem blocks_tree_forks :
    let calls := [callAt 2147483646, callAt 2147483650, callAt 2147483661]
    ∃ blocks rows first rows',
      mineAll clockHash Sqlite.first (calls.take 2) [] = some (first, rows) ∧
      mineAll clockHash Sqlite.first calls [] = some (blocks, rows') ∧
      rows <+: rows' ∧ (rows'.map Row.blockHash).Nodup ∧
      rows'.head? = some (epochRow 2147483645) ∧
      (∀ (i : Nat) (hi : i < rows'.length), 0 < i → Extends clockHash (rows'.take i) rows'[i]) ∧
      ∀ row ∈ rows', Descends rows' row := by
  intro calls
  have hReadable : ∀ call ∈ calls, call.Readable := by
    intro call hCall
    simp only [calls, List.mem_cons, List.not_mem_nil, or_false] at hCall
    obtain rfl | rfl | rfl := hCall <;> exact callAt_readable _
  exact blocks_tree clockHash Sqlite.first _ [callAt 2147483650] [callAt 2147483661] hReadable
    (along_of_easy Sqlite.first clockHash_mined calls short_nil)

end Manhattan.Chain
