import Manhattan.Chain.Block
import Manhattan.Library.Runs

/-! # mine()

The table of `blockchain.db` as its rows in the order of their insertion, and what one call
of `mine` does to it. What a call reads from outside, the clock, the transaction pool and
the bytes that its structs start with, is an argument.
-/

namespace Manhattan.Chain

open Library.CStrings

structure Row where
  blockHash : CString
  previousHash : CString
  blockData : CString
  transactionCount : Int
  timestamp : Int
  nonce : Int
  deriving DecidableEq

/-- `SELECT block_hash FROM blocks ORDER BY timestamp DESC LIMIT 1` finds a row with the
greatest timestamp; which one, when there are several, is left to SQLite. -/
structure Sqlite where
  newest : List Row → Option Row
  newest_nil : newest [] = none
  newest_of_ne_nil : ∀ rows ≠ [], ∃ r ∈ rows, newest rows = some r ∧
    ∀ other ∈ rows, other.timestamp ≤ r.timestamp

def firstNewest : List Row → Option Row
  | [] => none
  | r :: rest =>
    match firstNewest rest with
    | none => some r
    | some newest => if newest.timestamp ≤ r.timestamp then some r else some newest

theorem firstNewest_of_ne_nil (rows : List Row) (hRows : rows ≠ []) :
    ∃ r ∈ rows, firstNewest rows = some r ∧ ∀ other ∈ rows, other.timestamp ≤ r.timestamp := by
  induction rows with
  | nil => exact absurd rfl hRows
  | cons r rest ih =>
    cases rest with
    | nil =>
      refine ⟨r, List.mem_singleton.mpr rfl, rfl, ?_⟩
      intro other hOther
      rw [List.mem_singleton.mp hOther]
    | cons next rest =>
      obtain ⟨newest, hMem, hNewest, hGreatest⟩ := ih (List.cons_ne_nil _ _)
      rw [firstNewest, hNewest]
      by_cases hLe : newest.timestamp ≤ r.timestamp
      · refine ⟨r, List.mem_cons_self, if_pos hLe, ?_⟩
        intro other hOther
        rcases List.mem_cons.mp hOther with rfl | hRest
        · exact Int.le_refl _
        · exact Int.le_trans (hGreatest other hRest) hLe
      · refine ⟨newest, List.mem_cons_of_mem _ hMem, if_neg hLe, ?_⟩
        intro other hOther
        rcases List.mem_cons.mp hOther with rfl | hRest
        · omega
        · exact hGreatest other hRest

def Sqlite.first : Sqlite where
  newest := firstNewest
  newest_nil := rfl
  newest_of_ne_nil := firstNewest_of_ne_nil

/-- `INSERT INTO blocks`, which fails on a `block_hash` that is there already. -/
def insertRow (rows : List Row) (row : Row) : List Row :=
  if row.blockHash ∈ rows.map Row.blockHash then rows else rows ++ [row]

/-- `sqlite3_bind_int` of a `time_t`: the argument is an `int`. -/
def bindInt (v : BitVec 64) : Int := (v.setWidth 32).toInt

def EPOCH : CString := ⟨[69, 80, 79, 67, 72], by decide⟩

/-! ## start_blockchain -/

def genesisBlock (uninit : Block) (timestamp : BitVec 64) : Option Block := do
  let arrays ← uninit.arrays.strcpy At.previousHash EPOCH
  let arrays ← arrays.strcpy At.blockHash EPOCH
  let arrays ← arrays.strcpy At.transactionBundle EPOCH
  return {
    blockIndex := uninit.blockIndex
    arrays := arrays
    transactionCount := 0
    timestamp := timestamp
    nonce := 0 }

def genesisRow (genesis : Block) : Option Row := do
  let blockHash ← genesis.arrays.string At.blockHash
  let previousHash ← genesis.previousHash
  let transactionBundle ← genesis.transactionBundle
  return {
    blockHash := blockHash
    previousHash := previousHash
    blockData := transactionBundle
    transactionCount := genesis.transactionCount.toInt
    timestamp := bindInt genesis.timestamp
    nonce := genesis.nonce.toInt }

def startBlockchain (uninit : Block) (structClock genesisClock : BitVec 64) (rows : List Row) :
    Option (List Row) := do
  let genesis ← genesisBlock uninit structClock
  if rows.length = 0 then do
    let now := genesisClock
    let row ← genesisRow { genesis with timestamp := now - 1 }
    return insertRow rows row
  else return rows

/-- What one call of `mine` takes from outside: what `start_blockchain` takes, then for
`create_block` the rows of the pool (`none` if the SELECT fails), the bytes of its struct and
a reading of the clock. -/
structure Call where
  genesisUninit : Block
  structClock : BitVec 64
  genesisClock : BitVec 64
  pool : Option (List (List CString))
  blockUninit : Block
  blockClock : BitVec 64

def Call.start (call : Call) (rows : List Row) : Option (List Row) :=
  startBlockchain call.genesisUninit call.structClock call.genesisClock rows

/-! ## create_block -/

def comma : CString := ⟨[44], by decide⟩

def newline : CString := ⟨[10], by decide⟩

def poolLine : List CString → CString
  | [] => newline
  | column :: rest => column ++ comma ++ poolLine rest

def output : List (List CString) → CString
  | [] => .empty
  | row :: rest => poolLine row ++ output rest

def getPreviousHash (sqlite : Sqlite) (rows : List Row) : Option CString :=
  (sqlite.newest rows).map Row.blockHash

/-- `new_block` as it goes into `hash_block`. A failed SELECT leaves `output` without an end. -/
def newBlock (sqlite : Sqlite) (call : Call) (rows : List Row) : Option Block := do
  let pool ← call.pool
  let arrays ← call.blockUninit.arrays.strcpy At.transactionBundle (output pool)
  let previousHash ← getPreviousHash sqlite rows
  let arrays ← arrays.strcpy At.previousHash previousHash
  return {
    blockIndex := call.blockUninit.blockIndex
    arrays := arrays
    transactionCount := BitVec.ofNat 32 pool.length
    timestamp := call.blockClock
    nonce := 0 }

def createBlock (sha384 : Hash) (sqlite : Sqlite) (call : Call) (rows : List Row) :
    Option Block := do
  let b ← newBlock sqlite call rows
  hashBlock sha384 b

/-! ## add_block -/

def addBlock (b : Block) (rows : List Row) : Option (List Row) := do
  let blockHash ← b.blockHashHex
  let previousHash ← b.previousHash
  let transactionBundle ← b.transactionBundle
  return insertRow rows {
    blockHash := blockHash
    previousHash := previousHash
    blockData := transactionBundle
    transactionCount := b.transactionCount.toInt
    timestamp := bindInt b.timestamp
    nonce := b.nonce.toInt }

/-- The block that was made, and the table afterwards. -/
def mine (sha384 : Hash) (sqlite : Sqlite) (call : Call) (rows : List Row) :
    Option (Block × List Row) := do
  let rows ← call.start rows
  let b ← createBlock sha384 sqlite call rows
  let rows ← addBlock b rows
  return (b, rows)

def mineAll (sha384 : Hash) (sqlite : Sqlite) :
    List Call → List Row → Option (List Block × List Row)
  | [], rows => some ([], rows)
  | call :: rest, rows => do
    let (b, rows) ← mine sha384 sqlite call rows
    let (blocks, rows) ← mineAll sha384 sqlite rest rows
    return (b :: blocks, rows)

/-! ## What the calls meet -/

def Call.Succeeds (sha384 : Hash) (sqlite : Sqlite) (call : Call) (rows : List Row) : Prop :=
  ∀ rows' b, call.start rows = some rows' → newBlock sqlite call rows' = some b →
    ∃ nonce newHash, b.search sha384 = some (some (nonce, newHash))

/-- The table that the next call finds. -/
def mineStep (sha384 : Hash) (sqlite : Sqlite) (rows : List Row) (call : Call) : Option (List Row) :=
  (mine sha384 sqlite call rows).map Prod.snd

/-- Every call meets `P` on the table that it finds. -/
abbrev Along (sha384 : Hash) (sqlite : Sqlite) (P : Call → List Row → Prop) (calls : List Call)
    (rows : List Row) : Prop :=
  Library.Runs.Along (mineStep sha384 sqlite) (fun rows call => P call rows) rows calls

theorem mineStep_eq_some {sha384 : Hash} {sqlite : Sqlite} {call : Call} {rows rows' : List Row} :
    mineStep sha384 sqlite rows call = some rows' ↔
      ∃ b, mine sha384 sqlite call rows = some (b, rows') := by
  rw [mineStep, Option.map_eq_some_iff]
  constructor
  · rintro ⟨⟨b, _⟩, hMine, rfl⟩
    exact ⟨b, hMine⟩
  · rintro ⟨b, hMine⟩
    exact ⟨(b, rows'), hMine, rfl⟩

theorem Along.next {sha384 : Hash} {sqlite : Sqlite} {P : Call → List Row → Prop} {call : Call}
    {rest : List Call} {rows rows' : List Row} {b : Block}
    (h : Along sha384 sqlite P (call :: rest) rows)
    (hMine : mine sha384 sqlite call rows = some (b, rows')) : Along sha384 sqlite P rest rows' :=
  h.2 rows' (mineStep_eq_some.mpr ⟨b, hMine⟩)

end Manhattan.Chain
