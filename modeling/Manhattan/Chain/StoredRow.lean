import Manhattan.Chain.HexText

/-! # What the row of a block keeps

`add_block` stores neither `block_index`, which `create_block` never sets, nor the upper half
of the timestamp, and the text of the hash does not tell all hashes apart. Two blocks with one
row have the same preimage if and only if these fields are printed alike around
`previous_hash`.
-/

namespace Manhattan.Chain

open Library.CStrings Library.Separated

def Block.row (b : Block) : Option Row := do
  let blockHash ← b.blockHashHex
  let previousHash ← b.previousHash
  let transactionBundle ← b.transactionBundle
  return {
    blockHash := blockHash
    previousHash := previousHash
    blockData := transactionBundle
    transactionCount := b.transactionCount.toInt
    timestamp := bindInt b.timestamp
    nonce := b.nonce.toInt }

theorem addBlock_eq (b : Block) (rows : List Row) :
    addBlock b rows = b.row.map (insertRow rows) := by
  unfold addBlock Block.row
  cases b.blockHashHex <;> cases b.previousHash <;> cases b.transactionBundle <;> rfl

def Block.preimage (b : Block) : Option CString := b.print (some b.nonce)

theorem Block.data_eq (b : Block) :
    b.data 29999 (some b.nonce) = b.preimage.bind (sprintf 29999) := rfl

/-- The digits `u` at the end of the index of `b'` are, moved over the common `previous_hash`,
the digits `v` at the start of the timestamp of `b`. -/
def Block.Shifts (b b' : Block) : Prop :=
  ∃ p u v, b.previousHash = some p ∧ u ≠ [] ∧
    Moves p.chars (decimal b.blockIndex.toInt).chars (decimal b.timestamp.toInt).chars
      (decimal b'.blockIndex.toInt).chars (decimal b'.timestamp.toInt).chars u v

structure Block.Stores (b : Block) (row : Row) : Prop where
  blockHash : b.blockHashHex = some row.blockHash
  previousHash : b.previousHash = some row.previousHash
  transactionBundle : b.transactionBundle = some row.blockData
  transactionCount : b.transactionCount.toInt = row.transactionCount
  timestamp : bindInt b.timestamp = row.timestamp
  nonce : b.nonce.toInt = row.nonce

theorem Block.stores_of_row {b : Block} {row : Row} (h : b.row = some row) : b.Stores row := by
  obtain ⟨blockHash, hHash, h⟩ := Option.bind_eq_some_iff.mp h
  obtain ⟨previousHash, hPrevious, h⟩ := Option.bind_eq_some_iff.mp h
  obtain ⟨transactionBundle, hBundle, h⟩ := Option.bind_eq_some_iff.mp h
  obtain rfl := Option.some.inj h
  exact ⟨hHash, hPrevious, hBundle, rfl, rfl, rfl⟩

variable {b b' : Block} {row : Row}

theorem Block.Stores.preimage (h : b.Stores row) : b.preimage =
    some (decimal b.blockIndex.toInt ++ (row.previousHash ++ (decimal b.timestamp.toInt ++
      (decimal row.transactionCount ++ row.blockData ++ decimal row.nonce)))) := by
  simp only [Block.preimage, Block.print, h.previousHash, h.transactionBundle, h.transactionCount,
    h.nonce, Option.bind_eq_bind, Option.bind_some, Option.pure_def, CString.append_assoc]

theorem Block.Stores.preimage_eq_iff (h : b.Stores row) (h' : b'.Stores row) :
    b.preimage = b'.preimage ↔ (decimal b.blockIndex.toInt).chars ++
        (row.previousHash.chars ++ (decimal b.timestamp.toInt).chars) =
      (decimal b'.blockIndex.toInt).chars ++
        (row.previousHash.chars ++ (decimal b'.timestamp.toInt).chars) := by
  rw [h.preimage, h'.preimage, Option.some.injEq, CString.ext_iff]
  simp only [CString.chars_append, ← List.append_assoc, List.append_cancel_right_eq]

theorem Block.Stores.shifts (h : b.Stores row) (hLength : (decimal b.blockIndex.toInt).length ≤
      (decimal b'.blockIndex.toInt).length)
    (hSame : (decimal b.blockIndex.toInt).chars ++
        (row.previousHash.chars ++ (decimal b.timestamp.toInt).chars) =
      (decimal b'.blockIndex.toInt).chars ++
        (row.previousHash.chars ++ (decimal b'.timestamp.toInt).chars)) :
    (b.blockIndex = b'.blockIndex ∧ b.timestamp = b'.timestamp) ∨ b.Shifts b' := by
  obtain ⟨u, v, hMoves⟩ := moves_of_append_eq hSame hLength
  rcases eq_or_ne u [] with rfl | hu
  · have hEmpty := hMoves.shift
    obtain rfl : v = [] := by simpa using hEmpty.symm
    left
    exact ⟨decimal_toInt_inj (CString.ext (by simpa using hMoves.front.symm)),
      decimal_toInt_inj (CString.ext hMoves.back)⟩
  · exact .inr ⟨row.previousHash, u, v, h.previousHash, hu, hMoves⟩

theorem Block.Stores.append_eq_of_shifts (h : b.Stores row) (hShifts : b.Shifts b') :
    (decimal b.blockIndex.toInt).chars ++
        (row.previousHash.chars ++ (decimal b.timestamp.toInt).chars) =
      (decimal b'.blockIndex.toInt).chars ++
        (row.previousHash.chars ++ (decimal b'.timestamp.toInt).chars) := by
  obtain ⟨p, u, v, hPrevious, _, hMoves⟩ := hShifts
  obtain rfl := Option.some.inj (h.previousHash.symm.trans hPrevious)
  exact hMoves.append_eq

/-- Two blocks with one row have one preimage if and only if they have the same index and the
same timestamp, or digits move from one to the other. -/
theorem row_keeps_preimage_iff (b b' : Block) (row : Row) (h : b.row = some row)
    (h' : b'.row = some row) : b.preimage = b'.preimage ↔
      (b.blockIndex = b'.blockIndex ∧ b.timestamp = b'.timestamp) ∨ b.Shifts b' ∨ b'.Shifts b := by
  have hStores := Block.stores_of_row h
  have hStores' := Block.stores_of_row h'
  rw [hStores.preimage_eq_iff hStores']
  constructor
  · intro hSame
    rcases Nat.le_total (decimal b.blockIndex.toInt).length (decimal b'.blockIndex.toInt).length
      with hLe | hGe
    · exact (hStores.shifts hLe hSame).imp_right .inl
    · rcases hStores'.shifts hGe hSame.symm with ⟨hIndex, hTimestamp⟩ | hShifts
      · exact .inl ⟨hIndex.symm, hTimestamp.symm⟩
      · exact .inr (.inr hShifts)
  · rintro (⟨hIndex, hTimestamp⟩ | hShifts | hShifts)
    · rw [hIndex, hTimestamp]
    · exact hStores.append_eq_of_shifts hShifts
    · exact (hStores'.append_eq_of_shifts hShifts).symm

def emptyRow : Row := ⟨.empty, .empty, .empty, 0, 0, 0⟩

theorem row_keeps_preimage_iff_empty :
    let b' : Block := { zeroBlock with blockIndex := 1 }
    zeroBlock.preimage = b'.preimage ↔
      (zeroBlock.blockIndex = b'.blockIndex ∧ zeroBlock.timestamp = b'.timestamp) ∨
        zeroBlock.Shifts b' ∨ b'.Shifts zeroBlock := by
  intro b'
  exact row_keeps_preimage_iff zeroBlock b' emptyRow (by decide +kernel) (by decide +kernel)

/-! ## Two blocks with one row -/

def indexed (blockIndex : BitVec 32) : Call :=
  { callAt 1001 with blockUninit := numbered blockIndex }

/-- The structs start with different bytes where `block_index` is. -/
theorem row_shared : ∃ b b' row,
    createBlock indexHash Sqlite.first (indexed 1) [epochRow 1000] = some b ∧
      createBlock indexHash Sqlite.first (indexed 2) [epochRow 1000] = some b' ∧
      b.row = some row ∧ b'.row = some row ∧ b.blockHash ≠ b'.blockHash ∧
      b.preimage ≠ b'.preimage := by
  have hRun : (createBlock indexHash Sqlite.first (indexed 1) [epochRow 1000]).any
      (fun b : Block => (createBlock indexHash Sqlite.first (indexed 2) [epochRow 1000]).any
        fun b' : Block => b.row.any fun row => decide (b'.row = some row ∧
          b.blockHash ≠ b'.blockHash ∧ b.preimage ≠ b'.preimage)) = true := by decide +kernel
  obtain ⟨b, hCreate, hRun⟩ := (Option.any_eq_true _ _).mp hRun
  obtain ⟨b', hCreate', hRun⟩ := (Option.any_eq_true _ _).mp hRun
  obtain ⟨row, hRow, hRun⟩ := (Option.any_eq_true _ _).mp hRun
  exact ⟨b, b', row, hCreate, hCreate', hRow, of_decide_eq_true hRun⟩

end Manhattan.Chain
