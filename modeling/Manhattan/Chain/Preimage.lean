import Manhattan.Chain.Block

/-! # What the proof of work commits to

`hash_block` and `validate_block` print the fields of a block one after the other with nothing
between them. Digits can therefore move from one field to the next: the printed text fixes the
fields exactly as far as it fixes where each of them ends.
-/

namespace Manhattan.Chain

open Library.CStrings

/-- How many bytes the fields before the nonce take in the printed text. -/
structure Widths where
  blockIndex : Nat
  previousHash : Nat
  timestamp : Nat
  transactionCount : Nat
  transactionBundle : Nat
  deriving DecidableEq

def Block.widths (b : Block) : Option Widths := do
  let previousHash ← b.previousHash
  let transactionBundle ← b.transactionBundle
  return {
    blockIndex := (decimal b.blockIndex.toInt).length
    previousHash := previousHash.length
    timestamp := (decimal b.timestamp.toInt).length
    transactionCount := (decimal b.transactionCount.toInt).length
    transactionBundle := transactionBundle.length }

structure Block.Agrees (b b' : Block) : Prop where
  blockIndex : b.blockIndex = b'.blockIndex
  previousHash : b.previousHash = b'.previousHash
  timestamp : b.timestamp = b'.timestamp
  transactionCount : b.transactionCount = b'.transactionCount
  transactionBundle : b.transactionBundle = b'.transactionBundle

structure Block.Prints (b : Block) (nonce : BitVec 32) (text p t : CString) : Prop where
  previousHash : b.previousHash = some p
  transactionBundle : b.transactionBundle = some t
  whole : text = decimal b.blockIndex.toInt ++ p ++ decimal b.timestamp.toInt ++
    decimal b.transactionCount.toInt ++ t ++ decimal nonce.toInt

theorem Block.prints_of_data {b : Block} {capacity : Nat} {nonce : BitVec 32} {text : CString}
    (h : b.data capacity (some nonce) = some text) :
    ∃ p t, b.Prints nonce text p t := by
  obtain ⟨printed, hPrint, hText⟩ := Option.bind_eq_some_iff.mp h
  obtain ⟨p, hPrevious, hRest⟩ := Option.bind_eq_some_iff.mp hPrint
  obtain ⟨t, hBundle, hPrinted⟩ := Option.bind_eq_some_iff.mp hRest
  refine ⟨p, t, hPrevious, hBundle, ?_⟩
  rw [sprintf_eq_some hText]
  exact (Option.some.inj hPrinted).symm

theorem Block.Prints.widths {b : Block} {nonce : BitVec 32} {text p t : CString}
    (h : b.Prints nonce text p t) :
    b.widths = some ⟨(decimal b.blockIndex.toInt).length, p.length,
      (decimal b.timestamp.toInt).length, (decimal b.transactionCount.toInt).length, t.length⟩ := by
  rw [Block.widths, h.previousHash, h.transactionBundle]
  rfl

theorem decimal_toInt_inj {w : Nat} {x y : BitVec w} (h : decimal x.toInt = decimal y.toInt) :
    x = y := BitVec.eq_of_toInt_eq (decimal_injective h)

theorem Block.Agrees.widths {b b' : Block} (h : b.Agrees b') : b.widths = b'.widths := by
  obtain ⟨hIndex, hPrevious, hTimestamp, hCount, hBundle⟩ := h
  rw [Block.widths, Block.widths, hIndex, hPrevious, hTimestamp, hCount, hBundle]

theorem Block.Prints.agrees {b b' : Block} {nonce nonce' : BitVec 32} {text p p' t t' : CString}
    (h : b.Prints nonce text p t) (h' : b'.Prints nonce' text p' t') (hWidths : b.widths = b'.widths) :
    b.Agrees b' ∧ nonce = nonce' := by
  rw [h.widths, h'.widths] at hWidths
  obtain ⟨hIndex, hPrevious, hTimestamp, hCount, hBundle⟩ :=
    Widths.mk.injEq .. ▸ Option.some.inj hWidths
  have hText := h.whole.symm.trans h'.whole
  obtain ⟨hText, hNonceText⟩ := CString.append_inj hText (by simp only [CString.length_append]; omega)
  obtain ⟨hText, hBundleText⟩ := CString.append_inj hText (by simp only [CString.length_append]; omega)
  obtain ⟨hText, hCountText⟩ := CString.append_inj hText (by simp only [CString.length_append]; omega)
  obtain ⟨hText, hTimestampText⟩ := CString.append_inj hText (by simp only [CString.length_append]; omega)
  obtain ⟨hIndexText, hPreviousText⟩ := CString.append_inj hText hIndex
  refine ⟨⟨decimal_toInt_inj hIndexText, ?_, decimal_toInt_inj hTimestampText,
    decimal_toInt_inj hCountText, ?_⟩, decimal_toInt_inj hNonceText⟩
  · rw [h.previousHash, h'.previousHash, hPreviousText]
  · rw [h.transactionBundle, h'.transactionBundle, hBundleText]

/-- Two blocks with the same preimage agree if and only if their fields end at the same places
of it. The buffers are those of `hash_block` and `validate_block`, or of any other size. -/
theorem preimage_commits_iff (b b' : Block) (capacity capacity' : Nat) (nonce nonce' : BitVec 32)
    (text : CString) (h : b.data capacity (some nonce) = some text)
    (h' : b'.data capacity' (some nonce') = some text) :
    (b.Agrees b' ∧ nonce = nonce') ↔ b.widths = b'.widths := by
  obtain ⟨p, t, hPrints⟩ := Block.prints_of_data h
  obtain ⟨p', t', hPrints'⟩ := Block.prints_of_data h'
  constructor
  · rintro ⟨hAgrees, _⟩
    exact hAgrees.widths
  · exact hPrints.agrees hPrints'

def blockWithPrevious (blockIndex : BitVec 32) (previousHash : CString)
    (h : previousHash.length ≤ 96) : Block where
  blockIndex := blockIndex
  arrays := (Region.zeros 20271).write At.previousHash previousHash.chars
    (Nat.le_trans (Nat.add_le_add_left h _) (by decide))
  transactionCount := 0
  timestamp := 0
  nonce := 0

/-- The text "12007" is printed for block 1 after the hash "2" and for block 12 after an
empty one. -/
theorem preimage_shared :
    let b := blockWithPrevious 1 ⟨[50], by decide⟩ (by decide)
    let b' := blockWithPrevious 12 .empty (by decide)
    b.data 129999 (some 7) = some ⟨[49, 50, 48, 48, 55], by decide⟩ ∧
    b'.data 29999 (some 7) = some ⟨[49, 50, 48, 48, 55], by decide⟩ ∧
    b.blockIndex ≠ b'.blockIndex ∧ b.previousHash ≠ b'.previousHash := by
  intro b b'
  refine ⟨?_, ?_, ?_, ?_⟩ <;> decide +kernel

theorem preimage_commits_iff_shared :
    let b := blockWithPrevious 1 ⟨[50], by decide⟩ (by decide)
    let b' := blockWithPrevious 12 .empty (by decide)
    (b.Agrees b' ∧ (7 : BitVec 32) = 7) ↔ b.widths = b'.widths := by
  intro b b'
  exact preimage_commits_iff b b' 129999 29999 7 7 ⟨[49, 50, 48, 48, 55], by decide⟩
    (by decide +kernel) (by decide +kernel)

end Manhattan.Chain
