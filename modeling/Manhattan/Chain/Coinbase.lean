import Manhattan.Chain.HexText
import Manhattan.Library.Matching
import Manhattan.Library.Pieces
import Manhattan.Library.StandardInput

/-! # The coinbase transaction

`print_coinbase_transaction` prints the bytes of the previous hash as signed characters, of which
those from 0x80 on take eight digits. Here, unlike in `hash_block`, no digit is printed over another,
and the text tells the transaction, but for the half of the output that it leaves out.
-/

namespace Manhattan.Chain

open Library Library.CStrings Library.Matching Library.Separated Library.StandardInput

structure CoinbaseTransaction where
  prevBlockHash : Region 32
  coinbaseOutput : Region 8
  nonce : BitVec 32

def createCoinbaseTransaction (prevBlockHash : Region 32) (nonce : BitVec 32) :
    CoinbaseTransaction where
  prevBlockHash := prevBlockHash
  coinbaseOutput := .zeros 8
  nonce := nonce

/-- `*((int*)coinbase->coinbase_output)`: its first four bytes -/
def CoinbaseTransaction.outputInt (coinbase : CoinbaseTransaction) : BitVec 32 :=
  BitVec.ofNat 32 (Nat.ofDigits 256 ((coinbase.coinbaseOutput.bytes.take 4).map BitVec.toNat))

def printedByte (b : Byte) : CString := hex02 (b.signExtend 32).toNat

def printCoinbaseTransaction (coinbase : CoinbaseTransaction) : CString :=
  (.ascii "Previous Block Hash: " ++ CString.flatMap printedByte coinbase.prevBlockHash.bytes ++
      newline) ++
    (.ascii "Coinbase Output: " ++ decimal coinbase.outputInt.toInt ++ newline) ++
    (.ascii "Nonce: " ++ decimal coinbase.nonce.toInt ++ newline)

/-! ## The digits -/

theorem printed_shape : ∀ b : Byte,
    (b < 128 → (printed b).length = 2 ∧ (printed b).head? ≠ some 102) ∧
      (128 ≤ b → (printed b).length = 8 ∧ (printed b).head? = some 102) ∧
      10 ∉ printed b := by
  decide +kernel

theorem printed_ne_nil (b : Byte) : printed b ≠ [] := by
  have hTwo := two_le_length_hex02 (b.signExtend 32).toNat
  intro hNil
  have hNone : (printed b).length = 0 := congrArg List.length hNil
  rw [CString.length] at hTwo
  rw [printed] at hNone
  omega

/-- Eight digits start with `f`, two digits do not. -/
theorem prefixFree_printed : PrefixFree (Set.range printed : Set (List Byte)) := by
  rintro _ ⟨b, rfl⟩ _ ⟨c, rfl⟩ hFront
  obtain ⟨hShort, hLong, -⟩ := printed_shape b
  obtain ⟨hShort', hLong', -⟩ := printed_shape c
  have hHead : (printed b).head? = (printed c).head? := by
    obtain ⟨more, hMore⟩ := hFront
    rw [← hMore, List.head?_append_of_ne_nil _ (printed_ne_nil b)]
  apply hFront.eq_of_length
  by_cases hb : b < 128
  · by_cases hc : c < 128
    · rw [(hShort hb).1, (hShort' hc).1]
    · exact absurd (hHead.trans (hLong' (BitVec.not_lt.mp hc)).2) (hShort hb).2
  · have hb' := BitVec.not_lt.mp hb
    by_cases hc : c < 128
    · exact absurd (hHead.symm.trans (hLong hb').2) (hShort' hc).2
    · rw [(hLong hb').1, (hLong' (BitVec.not_lt.mp hc)).1]

/-! ## The lines -/

def CoinbaseTransaction.lines (coinbase : CoinbaseTransaction) : List (List Byte) :=
  [(CString.ascii "Previous Block Hash: ").chars ++ coinbase.prevBlockHash.bytes.flatMap printed,
    (CString.ascii "Coinbase Output: " ++ decimal coinbase.outputInt.toInt).chars,
    (CString.ascii "Nonce: " ++ decimal coinbase.nonce.toInt).chars]

theorem chars_printCoinbaseTransaction (coinbase : CoinbaseTransaction) :
    (printCoinbaseTransaction coinbase).chars = terminated newlineByte coinbase.lines := by
  simp [printCoinbaseTransaction, CoinbaseTransaction.lines, newline, newlineByte,
    CString.flatMap]
  rfl

theorem CoinbaseTransaction.not_mem_lines (coinbase : CoinbaseTransaction) :
    ∀ line ∈ coinbase.lines, newlineByte ∉ line := by
  have hDecimal (i : Int) : newlineByte ∉ (decimal i).chars :=
    not_mem_decimal (by decide) (by decide)
  intro line hLine hMem
  simp only [lines, List.mem_cons, List.not_mem_nil, or_false] at hLine
  obtain rfl | rfl | rfl := hLine
  · obtain hText | hDigits := List.mem_append.mp hMem
    · exact absurd hText (by decide)
    · obtain ⟨b, -, hByte⟩ := List.mem_flatMap.mp hDigits
      exact (printed_shape b).2.2 hByte
  · obtain hText | hDigits := List.mem_append.mp hMem
    · exact absurd hText (by decide)
    · exact hDecimal _ hDigits
  · obtain hText | hDigits := List.mem_append.mp hMem
    · exact absurd hText (by decide)
    · exact hDecimal _ hDigits

theorem CoinbaseTransaction.outputInt_eq_iff (coinbase coinbase' : CoinbaseTransaction) :
    coinbase.outputInt = coinbase'.outputInt ↔
      coinbase.coinbaseOutput.bytes.take 4 = coinbase'.coinbaseOutput.bytes.take 4 := by
  have hBytes (c : CoinbaseTransaction) :
      ∀ d ∈ (c.coinbaseOutput.bytes.take 4).map BitVec.toNat, d < 256 := by
    intro d hd
    obtain ⟨b, -, rfl⟩ := List.mem_map.mp hd
    exact b.isLt
  have hLength (c : CoinbaseTransaction) :
      ((c.coinbaseOutput.bytes.take 4).map BitVec.toNat).length = 4 := by
    simp [c.coinbaseOutput.length_bytes]
  have hLess (c : CoinbaseTransaction) :
      Nat.ofDigits 256 ((c.coinbaseOutput.bytes.take 4).map BitVec.toNat) < 2 ^ 32 := by
    have hPower := Nat.ofDigits_lt_base_pow_length (by decide) (hBytes c)
    rwa [hLength c] at hPower
  constructor
  · intro h
    have hDigits := congrArg BitVec.toNat h
    rw [outputInt, outputInt, BitVec.toNat_ofNat, BitVec.toNat_ofNat,
      Nat.mod_eq_of_lt (hLess coinbase), Nat.mod_eq_of_lt (hLess coinbase')] at hDigits
    have hSame := Nat.ofDigits_inj_of_len_eq (by decide)
      ((hLength coinbase).trans (hLength coinbase').symm) (hBytes coinbase) (hBytes coinbase')
      hDigits
    exact List.map_injective_iff.mpr (fun _ _ => BitVec.eq_of_toNat_eq) hSame
  · intro h
    rw [outputInt, outputInt, h]

theorem CoinbaseTransaction.lines_eq_iff (coinbase coinbase' : CoinbaseTransaction) :
    coinbase.lines = coinbase'.lines ↔ coinbase.prevBlockHash = coinbase'.prevBlockHash ∧
      coinbase.coinbaseOutput.bytes.take 4 = coinbase'.coinbaseOutput.bytes.take 4 ∧
      coinbase.nonce = coinbase'.nonce := by
  constructor
  · intro h
    obtain ⟨hHash, hLines⟩ := List.cons.inj h
    obtain ⟨hOutput, hLines⟩ := List.cons.inj hLines
    have hNonce := (List.cons.inj hLines).1
    refine ⟨Region.mk.injEq .. ▸ ?_, (coinbase.outputInt_eq_iff coinbase').mp ?_, ?_⟩
    · exact prefixFree_printed.flatMap_injective printed_injective printed_ne_nil
        (List.append_cancel_left hHash)
    · exact BitVec.toInt_inj.mp (decimal_injective (CString.ext (List.append_cancel_left hOutput)))
    · exact BitVec.toInt_inj.mp (decimal_injective (CString.ext (List.append_cancel_left hNonce)))
  · rintro ⟨hHash, hOutput, hNonce⟩
    have hInt := (coinbase.outputInt_eq_iff coinbase').mpr hOutput
    rw [lines, lines, hHash, hInt, hNonce]

theorem printCoinbaseTransaction_eq_iff (coinbase coinbase' : CoinbaseTransaction) :
    printCoinbaseTransaction coinbase = printCoinbaseTransaction coinbase' ↔
      coinbase.lines = coinbase'.lines := by
  rw [CString.ext_iff, chars_printCoinbaseTransaction, chars_printCoinbaseTransaction]
  constructor
  · exact terminated_inj_of_length coinbase.not_mem_lines rfl
  · exact congrArg (terminated newlineByte)

theorem print_coinbase_transaction_iff (coinbase coinbase' : CoinbaseTransaction) :
    printCoinbaseTransaction coinbase = printCoinbaseTransaction coinbase' ↔
      coinbase.prevBlockHash = coinbase'.prevBlockHash ∧
      coinbase.coinbaseOutput.bytes.take 4 = coinbase'.coinbaseOutput.bytes.take 4 ∧
      coinbase.nonce = coinbase'.nonce :=
  (printCoinbaseTransaction_eq_iff ..).trans (coinbase.lines_eq_iff coinbase')

/-- As it is created, a transaction pays nothing, and the text tells it whole. -/
theorem printed_created_iff (prevBlockHash prevBlockHash' : Region 32) (nonce nonce' : BitVec 32) :
    printCoinbaseTransaction (createCoinbaseTransaction prevBlockHash nonce) =
        printCoinbaseTransaction (createCoinbaseTransaction prevBlockHash' nonce') ↔
      createCoinbaseTransaction prevBlockHash nonce =
        createCoinbaseTransaction prevBlockHash' nonce' := by
  rw [printCoinbaseTransaction_eq_iff, CoinbaseTransaction.lines_eq_iff]
  constructor
  · rintro ⟨rfl, -, rfl⟩
    rfl
  · intro h
    obtain ⟨hHash, -, hNonce⟩ := CoinbaseTransaction.mk.inj h
    exact ⟨hHash, rfl, hNonce⟩

end Manhattan.Chain
