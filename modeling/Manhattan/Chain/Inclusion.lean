import Manhattan.Chain.Admission
import Manhattan.Chain.LinearChain
import Manhattan.Library.Runs

/-! # How often a transaction is included

`create_transaction` and `mine` work on two databases. `create_block` puts the whole pool into
its block, and nothing takes a row out of the pool or sets its column `confirmed` when the block
is stored.
-/

namespace Manhattan.Chain

open Library.CStrings Library.Runs

/-- `transactions.db`, `blockchain.db`, and for each row of `blocks` behind the genesis row the
rows of the pool that `create_block` read for it. -/
structure Ledger where
  pool : Pool
  blocks : List Row
  sources : List (List PoolRow)

def Ledger.empty : Ledger := ⟨none, [], []⟩

/-- In a call of `mine` the pool is the one of the ledger. -/
inductive Operation
  | createTransaction (s : Submission)
  | mine (call : Call)

def Call.onPool (call : Call) (pool : Pool) : Call :=
  { call with pool := pool.map (List.map PoolRow.columns) }

def Ledger.step (platform : Platform) (sha384 : Hash) (sqlite : Sqlite) (l : Ledger) :
    Operation → Option Ledger
  | .createTransaction s => do
    let outcome ← createTransaction platform s l.pool
    return { l with pool := outcome.pool }
  | .mine call => do
    let (_, blocks) ← mine sha384 sqlite (call.onPool l.pool) l.blocks
    -- the INSERT into `blocks` fails where the hash is in the table already
    return {
      pool := l.pool
      blocks := blocks
      sources := if blocks.length = l.sources.length + 1 then l.sources
        else l.sources ++ [l.pool.rows] }

variable {platform : Platform} {sha384 : Hash} {sqlite : Sqlite} {l l' : Ledger}

/-! ## The bundles -/

def bundleOf (source : List PoolRow) : CString := output (source.map PoolRow.columns)

/-- The transactions of the block number `i` behind the genesis block are those of its source,
and `txid` is one of them. -/
def Ledger.Includes (l : Ledger) (i : Nat) (txid : CString) : Prop :=
  ∃ row source, l.blocks.tail[i]? = some row ∧ l.sources[i]? = some source ∧
    row.blockData = bundleOf source ∧ txid ∈ source.map PoolRow.txid

/-- Each bundle is the text of its source. -/
structure Ledger.Bundled (l : Ledger) : Prop where
  short : Short l.blocks
  start : l.blocks = [] → l.sources = []
  bundles : List.Forall₂ (fun row source => Row.blockData row = bundleOf source)
    l.blocks.tail l.sources

theorem bundled_empty : Ledger.empty.Bundled := ⟨short_nil, fun _ => rfl, .nil⟩

theorem Ledger.Bundled.started (h : l.Bundled) {call : Call} {started : List Row}
    (hStart : call.start l.blocks = some started) :
    ∃ genesis added, started = genesis :: added ∧
      List.Forall₂ (fun row source => Row.blockData row = bundleOf source) added l.sources := by
  have hBundles := h.bundles
  rcases hBlocks : l.blocks with _ | ⟨genesis, added⟩
  · rw [hBlocks, Call.start, startBlockchain_nil] at hStart
    rw [h.start hBlocks]
    exact ⟨_, [], (Option.some.inj hStart).symm, .nil⟩
  · rw [hBlocks, Call.start, startBlockchain_of_ne_nil _ _ _ (List.cons_ne_nil _ _)] at hStart
    rw [hBlocks] at hBundles
    exact ⟨genesis, added, (Option.some.inj hStart).symm, hBundles⟩

theorem rows_of_onPool {call : Call} {pool : Pool} {texts : List (List CString)}
    (h : (call.onPool pool).pool = some texts) : texts = pool.rows.map PoolRow.columns := by
  obtain ⟨rows, rfl, hTexts⟩ := Option.map_eq_some_iff.mp h
  exact hTexts.symm

theorem step_mine (h : l.Bundled) {call : Call}
    (hStep : l.step platform sha384 sqlite (.mine call) = some l') :
    l'.Bundled ∧ l'.pool = l.pool ∧
      (l'.sources = l.sources ∨ l'.sources = l.sources ++ [l.pool.rows]) := by
  obtain ⟨⟨b, blocks⟩, hMine, hStep⟩ := Option.bind_eq_some_iff.mp hStep
  obtain rfl := Option.some.inj hStep
  obtain ⟨started, texts, row, hStart, hTexts, rfl, hData, hHash⟩ := mine_stores hMine h.short
  obtain ⟨genesis, added, rfl, hBundles⟩ := h.started hStart
  have hShort := ((call.onPool l.pool).start_short h.short hStart).insertRow hHash
  have hLength := hBundles.length_eq
  rcases insertRow_cases (genesis :: added) row with hSame | hMore
  · have hKept : (genesis :: added).length = l.sources.length + 1 := congrArg Nat.succ hLength
    rw [hSame] at hShort
    rw [hSame, if_pos hKept]
    exact ⟨⟨hShort, nofun, hBundles⟩, rfl, .inl rfl⟩
  · have hLonger : ¬(genesis :: added ++ [row]).length = l.sources.length + 1 := by
      simp [hLength]
    have hSource : row.blockData = bundleOf l.pool.rows := by
      rw [hData, rows_of_onPool hTexts]
      rfl
    rw [hMore] at hShort
    rw [hMore, if_neg hLonger]
    exact ⟨⟨hShort, nofun, List.rel_append hBundles (.cons hSource .nil)⟩, rfl, .inr rfl⟩

theorem step_createTransaction {s : Submission}
    (hStep : l.step platform sha384 sqlite (.createTransaction s) = some l') :
    l'.blocks = l.blocks ∧ l'.sources = l.sources := by
  obtain ⟨outcome, _, hStep⟩ := Option.bind_eq_some_iff.mp hStep
  obtain rfl := Option.some.inj hStep
  exact ⟨rfl, rfl⟩

/-! ## No transaction twice -/

def SharesNone (source later : List PoolRow) : Prop :=
  ∀ row ∈ source, ∀ row' ∈ later, row.txid ≠ row'.txid

def Ledger.Unmined (l : Ledger) : Prop := ∀ source ∈ l.sources, SharesNone source l.pool.rows

/-- `mine` is called only when no row of the pool is in a stored block. -/
def Ledger.Meets (l : Ledger) : Operation → Prop
  | .createTransaction _ => True
  | .mine _ => l.Unmined

/-- `mine` stores a block without a transaction of an earlier block exactly where none of the
pool is in one. -/
theorem pairwise_stored (h : l'.sources = l.sources ++ [l.pool.rows])
    (hBefore : l.sources.Pairwise SharesNone) : l'.sources.Pairwise SharesNone ↔ l.Unmined := by
  rw [h, List.pairwise_append]
  constructor
  · rintro ⟨_, _, hAcross⟩ source hSource
    exact hAcross source hSource _ (List.mem_singleton.mpr rfl)
  · intro hUnmined
    refine ⟨hBefore, List.pairwise_singleton _ _, ?_⟩
    intro source hSource pool hPool
    rw [List.mem_singleton.mp hPool]
    exact hUnmined source hSource

theorem step_pairwise {operation : Operation} (h : l.Bundled ∧ l.sources.Pairwise SharesNone)
    (hMeets : l.Meets operation) (hStep : l.step platform sha384 sqlite operation = some l') :
    l'.Bundled ∧ l'.sources.Pairwise SharesNone := by
  obtain ⟨hBundled, hPairwise⟩ := h
  cases operation with
  | createTransaction s =>
    obtain ⟨hBlocks, hSources⟩ := step_createTransaction hStep
    refine ⟨⟨?_, ?_, ?_⟩, hSources ▸ hPairwise⟩
    · exact hBlocks ▸ hBundled.short
    · rw [hBlocks, hSources]
      exact hBundled.start
    · rw [hBlocks, hSources]
      exact hBundled.bundles
  | mine call =>
    obtain ⟨hBundled', _, hKept | hStored⟩ := step_mine hBundled hStep
    · exact ⟨hBundled', hKept ▸ hPairwise⟩
    · exact ⟨hBundled', (pairwise_stored hStored hPairwise).mpr hMeets⟩

theorem Ledger.Includes.unique (h : l.sources.Pairwise SharesNone) {i j : Nat} {txid : CString}
    (hi : l.Includes i txid) (hj : l.Includes j txid) : i = j := by
  obtain ⟨_, source, _, hSource, _, hMem⟩ := hi
  obtain ⟨_, source', _, hSource', _, hMem'⟩ := hj
  obtain ⟨row, hRow, rfl⟩ := List.mem_map.mp hMem
  obtain ⟨row', hRow', hTxid⟩ := List.mem_map.mp hMem'
  obtain ⟨hi, rfl⟩ := List.getElem?_eq_some_iff.mp hSource
  obtain ⟨hj, rfl⟩ := List.getElem?_eq_some_iff.mp hSource'
  rw [List.pairwise_iff_getElem] at h
  rcases Nat.lt_trichotomy i j with hLess | hSame | hGreater
  · exact absurd hTxid.symm (h i j hi hj hLess row hRow row' hRow')
  · exact hSame
  · exact absurd hTxid (h j i hj hi hGreater row' hRow' row hRow)

/-- In a run from empty databases in which `mine` is called only when no row of the pool is in a
stored block, every state reached has each bundle made of its source and no transaction in the
bundles of two blocks. -/
theorem included_once (platform : Platform) (sha384 : Hash) (sqlite : Sqlite)
    (operations : List Operation)
    (hMeets : Library.Runs.Along (Ledger.step platform sha384 sqlite) Ledger.Meets .empty
      operations)
    (taken later : List Operation) (hSplit : operations = taken ++ later) (l : Ledger)
    (hRun : run (Ledger.step platform sha384 sqlite) .empty taken = some l) :
    l.Bundled ∧ ∀ txid i j, l.Includes i txid → l.Includes j txid → i = j := by
  subst hSplit
  obtain ⟨hBundled, hPairwise⟩ := hMeets.left.keeps
    (fun l => l.Bundled ∧ l.sources.Pairwise SharesNone)
    (fun _ _ _ h hMeets hStep => step_pairwise h hMeets hStep) ⟨bundled_empty, .nil⟩ hRun
  exact ⟨hBundled, fun _ _ _ hi hj => hi.unique hPairwise hj⟩

/-- A hash that always meets the difficulty and tells the length of the text. -/
def lengthHash : Hash := fun data =>
  ⟨List.replicate 47 0 ++ [BitVec.ofNat 8 (data.length % 128)], by simp⟩

def aliceMined : List Operation := [.createTransaction alice, .mine (callAt 1001)]

theorem run_alice :
    ∃ l, run (Ledger.step onesPlatform lengthHash Sqlite.first) .empty
        (aliceMined ++ [.mine (callAt 1005)]) = some l ∧
      l.blocks.tail.map Row.blockData = [bundleOf [aliceRow], bundleOf [aliceRow]] ∧
      l.sources = [[aliceRow], [aliceRow]] := by
  have hCreate : Ledger.empty.step onesPlatform lengthHash Sqlite.first
      (.createTransaction alice) = some ⟨some [aliceRow], [], []⟩ := by
    simp only [Ledger.step, Ledger.empty, createTransaction_alice, Option.bind_eq_bind,
      Option.bind_some]
    rfl
  have hMines : (run (Ledger.step onesPlatform lengthHash Sqlite.first) ⟨some [aliceRow], [], []⟩
      [.mine (callAt 1001), .mine (callAt 1005)]).any (fun l =>
        l.blocks.tail.map Row.blockData = [bundleOf [aliceRow], bundleOf [aliceRow]] ∧
          l.sources = [[aliceRow], [aliceRow]]) = true := by decide +kernel
  obtain ⟨l, hRun, hLedger⟩ := (Option.any_eq_true _ _).mp hMines
  exact ⟨l, run_cons_eq_some.mpr ⟨_, hCreate, hRun⟩, of_decide_eq_true hLedger⟩

theorem included_once_alice :
    ∃ l, run (Ledger.step onesPlatform lengthHash Sqlite.first) .empty aliceMined = some l ∧
      l.Bundled ∧ ∀ txid i j, l.Includes i txid → l.Includes j txid → i = j := by
  obtain ⟨_, hTwice, _⟩ := run_alice
  obtain ⟨l, hRun, _⟩ := run_append_eq_some.mp hTwice
  refine ⟨l, hRun, included_once onesPlatform lengthHash Sqlite.first aliceMined ?_ aliceMined []
    (List.append_nil _).symm l hRun⟩
  refine ⟨trivial, fun submitted hStep => ⟨?_, fun _ _ => trivial⟩⟩
  rw [Ledger.Meets, Ledger.Unmined, (step_createTransaction hStep).2]
  nofun

/-- One transaction is made and `mine` is called twice: both blocks hold it. -/
theorem included_twice :
    ∃ l, run (Ledger.step onesPlatform lengthHash Sqlite.first) .empty
        (aliceMined ++ [.mine (callAt 1005)]) = some l ∧
      l.Includes 0 aliceRow.txid ∧ l.Includes 1 aliceRow.txid := by
  obtain ⟨l, hRun, hData, hSources⟩ := run_alice
  obtain ⟨first, rest, hTail, hFirst, hRest⟩ := List.map_eq_cons_iff.mp hData
  obtain ⟨second, rest', rfl, hSecond, _⟩ := List.map_eq_cons_iff.mp hRest
  refine ⟨l, hRun, ⟨first, [aliceRow], ?_, ?_, hFirst, List.mem_singleton.mpr rfl⟩,
    ⟨second, [aliceRow], ?_, ?_, hSecond, List.mem_singleton.mpr rfl⟩⟩
  · rw [hTail]
    rfl
  · rw [hSources]
    rfl
  · rw [hTail]
    rfl
  · rw [hSources]
    rfl

end Manhattan.Chain
