import Manhattan.Chain.Bundles
import Manhattan.Chain.InsertText

/-! # How large a bundle gets

`create_block` makes room for the text of the pool as the text grows, and then copies it without
a bound into an array of 19999 bytes. Each row brings 4948 bytes whatever is typed: its txid, its
signature, eleven commas and a newline.
-/

namespace Manhattan.Chain

open Library.CStrings Library.Separated

def MAX_TRANSACTIONS : Nat := 100

/-- The texts fit the arrays of `struct transaction`, and SQLite writes no number longer. -/
structure PoolRow.Sized (row : PoolRow) : Prop where
  sender : row.sender.length < 72
  recipient : row.recipient.length < 72
  data : row.data.length < 1024
  numbers : ∀ text ∈ row.numbers, text.length ≤ 24
  signature : row.signature.length = 4840

/-- The bytes of the columns that are neither the txid nor the signature -/
def PoolRow.extra (row : PoolRow) : Nat :=
  row.sender.length + row.recipient.length + row.data.length +
    (row.numbers.map CString.length).sum

def Roomy (p : List PoolRow) : Prop :=
  p.length ≤ 3 ∨ p.length = 4 ∧ (p.map PoolRow.extra).sum ≤ 206

variable {row : PoolRow} {p : List PoolRow}

/-! ## The rows that are typed -/

theorem sized_of_strings {t : NewTransaction} (hSender : t.sender.string 0 = some row.sender)
    (hRecipient : t.recipient.string 0 = some row.recipient)
    (hData : t.data.string 0 = some row.data) (hNumbers : ∀ text ∈ row.numbers, text.length ≤ 24)
    (hSignature : row.signature.length = 4840) : row.Sized :=
  ⟨length_lt_of_string hSender, length_lt_of_string hRecipient, length_lt_of_string hData, hNumbers,
    hSignature⟩

/-! ## Lengths -/

theorem length_columns (hSigned : row.Signed) (hSized : row.Sized) :
    (row.texts.map List.length).sum = 4936 + row.extra := by
  have hTxid : row.txid.chars.length = 96 := hSigned.length_txid
  have hSignature : row.signature.chars.length = 4840 := hSized.signature
  simp only [PoolRow.texts, PoolRow.columns, PoolRow.extra, PoolRow.numbers, CString.length,
    List.map_cons, List.map_nil, List.sum_cons, List.sum_nil]
  omega

theorem extra_le (h : row.Sized) : row.extra ≤ 1309 := by
  obtain ⟨hSender, hRecipient, hData, hNumbers, _⟩ := h
  have hSum := List.sum_le_card_nsmul (row.numbers.map CString.length) 24
    (List.forall_mem_map.mpr hNumbers)
  have hLength : (row.numbers.map CString.length).length = 6 := rfl
  rw [hLength, smul_eq_mul] at hSum
  unfold PoolRow.extra
  omega

theorem length_bundleOf (hSigned : ∀ row ∈ p, row.Signed) (hSized : ∀ row ∈ p, row.Sized) :
    (bundleOf p).length = 4948 * p.length + (p.map PoolRow.extra).sum := by
  induction p with
  | nil => rfl
  | cons row p ih =>
    obtain ⟨hRow, hRest⟩ := List.forall_mem_cons.mp hSigned
    obtain ⟨hRowSized, hRestSized⟩ := List.forall_mem_cons.mp hSized
    have hColumns := length_columns hRow hRowSized
    have hMore : (bundleOf p).chars.length = _ := ih hRest hRestSized
    have hCommas : row.texts.length = 11 := rfl
    rw [CString.length, chars_bundleOf_cons, List.length_append, List.length_cons, hMore,
      length_terminated, hColumns, hCommas, List.length_cons, List.map_cons, List.sum_cons]
    omega

theorem roomy_iff (hSigned : ∀ row ∈ p, row.Signed) (hSized : ∀ row ∈ p, row.Sized) :
    (bundleOf p).length < 19999 ↔ Roomy p := by
  have hSum := List.sum_le_card_nsmul (p.map PoolRow.extra) 1309
    (List.forall_mem_map.mpr fun row hRow => extra_le (hSized row hRow))
  rw [List.length_map, smul_eq_mul] at hSum
  rw [length_bundleOf hSigned hSized, Roomy]
  omega

/-! ## create_block -/

/-- The call returns a block with the text of the pool in its array, and whatever rows this is the
text of, they are as many as the block counts. -/
def Fits (sha384 : Hash) (sqlite : Sqlite) (call : Call) (rows : List Row) (p : List PoolRow) : Prop :=
  ∃ b text, createBlock sha384 sqlite (call.onPool (some p)) rows = some b ∧
    b.transactionBundle = some text ∧ text = bundleOf p ∧ text.length < 19999 ∧
    ∀ p', (∀ row ∈ p', row.Signed) → text = bundleOf p' → b.transactionCount.toInt = p'.length

/-- For rows of the sizes that `create_transaction` inserts, the bundle fits its block if and only
if there are at most three rows, or four whose other columns have at most 206 bytes together. -/
theorem bundle_fits_iff (sha384 : Hash) (sqlite : Sqlite) (call : Call) (rows : List Row)
    (hRows : rows ≠ []) (hShort : Short rows) (p : List PoolRow)
    (hSigned : ∀ row ∈ p, row.Signed) (hSized : ∀ row ∈ p, row.Sized) :
    Fits sha384 sqlite call rows p ↔ Roomy p := by
  rw [← roomy_iff hSigned hSized]
  constructor
  · rintro ⟨b, text, hCreate, _⟩
    exact (createBlock_onPool hShort hCreate).1
  · intro hFits
    obtain ⟨r, hMem, hNewest, _⟩ := sqlite.newest_of_ne_nil rows hRows
    have hReadable : (call.onPool (some p)).Readable := ⟨_, rfl, hFits⟩
    obtain ⟨b, hCreate⟩ := exists_createBlock sha384 hReadable hNewest (hShort r hMem)
    obtain ⟨_, hBundle, hCount⟩ := createBlock_onPool hShort hCreate
    refine ⟨b, bundleOf p, hCreate, hBundle, rfl, hFits, ?_⟩
    intro p' hSigned' hSame
    have hLength := ((bundleOf_eq_iff hSigned hSigned').mp hSame).length_eq
    have hRoomy : p.length ≤ 4 := by
      rw [length_bundleOf hSigned hSized] at hFits
      omega
    have hNat : (BitVec.ofNat 32 p.length).toNat = p.length := by
      rw [BitVec.toNat_ofNat, Nat.mod_eq_of_lt (by omega)]
    rw [hCount, BitVec.toInt_eq_toNat_of_lt (by omega), hNat, hLength]

theorem bundledRow_sized {sender recipient : CString} (hSender : sender.length < 72)
    (hRecipient : recipient.length < 72) : (bundledRow sender recipient).Sized := by
  have hData : aliceRow.data.length < 1024 := by decide
  have hNumbers : ∀ text ∈ aliceRow.numbers, text.length ≤ 24 := by decide
  exact ⟨hSender, hRecipient, hData, hNumbers, List.length_replicate⟩

theorem bundle_fits_iff_comma : Fits lengthHash Sqlite.first (callAt 1001) [epochRow 1000]
    [commaRow true] ↔ Roomy [commaRow true] :=
  bundle_fits_iff lengthHash Sqlite.first (callAt 1001) [epochRow 1000] (List.cons_ne_nil _ _)
    (short_epoch 1000) [commaRow true] (commaRow_signed true)
    (List.forall_mem_singleton.mpr (bundledRow_sized (by decide) (by decide)))

/-! ## Five rows -/

def numberedRow (i : Nat) : PoolRow :=
  { bundledRow (.ascii "a") (.ascii "b\n") with txid := zerosText 95 ++ decimalNat i }

def fiveRows : List PoolRow := (List.range 5).map numberedRow

theorem fiveRows_signed : ∀ row ∈ fiveRows, row.Signed := by
  intro row hRow
  obtain ⟨i, hi, rfl⟩ := List.mem_map.mp hRow
  have hDigit : ∀ i ∈ List.range 5, (∀ b ∈ (decimalNat i).chars, b ∈ lowerHexDigits) ∧
      (decimalNat i).length = 1 := by decide +kernel
  have hTxid : ∀ b ∈ (zerosText 95 ++ decimalNat i).chars, b ∈ lowerHexDigits := by
    intro b hb
    rcases List.mem_append.mp hb with hZero | hLast
    · exact mem_zerosText hZero
    · exact (hDigit i hi).1 b hLast
  have hLength : (zerosText 95 ++ decimalNat i).length = 96 := by
    rw [CString.length_append, (hDigit i hi).2]
    exact congrArg (· + 1) List.length_replicate
  have hBundled : (bundledRow (.ascii "a") (.ascii "b\n")).Signed :=
    bundledRow_signed (by decide) (by decide)
  exact ⟨hTxid, hLength, hBundled.sender, hBundled.recipient, hBundled.data, hBundled.numbers,
    hBundled.signature⟩

theorem fiveRows_sized : ∀ row ∈ fiveRows, row.Sized := by
  intro row hRow
  obtain ⟨i, _, rfl⟩ := List.mem_map.mp hRow
  have hBundled : (bundledRow (.ascii "a") (.ascii "b\n")).Sized :=
    bundledRow_sized (by decide) (by decide)
  exact ⟨hBundled.sender, hBundled.recipient, hBundled.data, hBundled.numbers, hBundled.signature⟩

/-- Five transactions of one unit each: their text is copied beyond the array, over the count. -/
theorem bundle_overflows : fiveRows.length ≤ MAX_TRANSACTIONS ∧
    (fiveRows.map PoolRow.txid).Nodup ∧ (∀ row ∈ fiveRows, row.Signed) ∧
    (∀ row ∈ fiveRows, row.Sized) ∧ 19999 ≤ (bundleOf fiveRows).length ∧
    createBlock lengthHash Sqlite.first ((callAt 1001).onPool (some fiveRows)) [epochRow 1000] =
      none := by
  have hLong : 19999 ≤ (bundleOf fiveRows).length := by
    rw [length_bundleOf fiveRows_signed fiveRows_sized]
    exact Nat.le_add_right_of_le (by decide)
  refine ⟨by decide, by decide +kernel, fiveRows_signed, fiveRows_sized, hLong, ?_⟩
  refine Option.eq_none_iff_forall_ne_some.mpr fun b hCreate => ?_
  exact Nat.not_lt.mpr hLong (createBlock_onPool (short_epoch 1000) hCreate).1

end Manhattan.Chain
