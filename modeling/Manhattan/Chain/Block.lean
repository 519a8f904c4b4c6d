import Manhattan.Library.CStrings

/-! # Blocks

`struct block` with its four character arrays kept as the one region they form in memory,
so that a string that runs over its array is found in the next. `hash_block`,
`validate_block` and `validate_blockchain` are computed in `Option`: nothing comes out
where the code would write behind a buffer or read a string that never ends.
-/

namespace Manhattan.Chain

open Library.CStrings

structure Digest where
  bytes : List Byte
  length_bytes : bytes.length = 48
  deriving DecidableEq

abbrev Hash := List Byte → Digest

/-- `previous_hash[96]`, `block_hash[48]`, `block_hash_hex[128]`, `transaction_bundle[19999]` -/
abbrev Arrays := Region 20271

namespace At

abbrev previousHash : Nat := 0
abbrev blockHash : Nat := 96
abbrev blockHashHex : Nat := 144
abbrev transactionBundle : Nat := 272

end At

structure Block where
  blockIndex : BitVec 32
  arrays : Arrays
  transactionCount : BitVec 32
  timestamp : BitVec 64
  nonce : BitVec 32
  deriving DecidableEq

namespace Block

def previousHash (b : Block) : Option CString := b.arrays.string At.previousHash

def blockHashHex (b : Block) : Option CString := b.arrays.string At.blockHashHex

def transactionBundle (b : Block) : Option CString := b.arrays.string At.transactionBundle

def blockHash (b : Block) : List Byte := (b.arrays.bytes.drop At.blockHash).take 48

/-- `"%d%s%ld%d%s"`, with `"%d"` for the nonce after it if there is one. -/
def print (b : Block) (nonce : Option (BitVec 32)) : Option CString := do
  let previousHash ← b.previousHash
  let transactionBundle ← b.transactionBundle
  let text := decimal b.blockIndex.toInt ++ previousHash ++ decimal b.timestamp.toInt ++
    decimal b.transactionCount.toInt ++ transactionBundle
  return match nonce with
    | none => text
    | some nonce => text ++ decimal nonce.toInt

def data (b : Block) (capacity : Nat) (nonce : Option (BitVec 32)) : Option CString := do
  sprintf capacity (← b.print nonce)

end Block

def DIFFICULTY : Nat := 3

/-- The loop that counts `leading_zeros` in a hash, which has more than `difficulty` bytes. -/
def leadingZeros : List Byte → Nat → Nat
  | _, 0 => 0
  | [], _ => 0
  | b :: rest, difficulty + 1 => if b = 0 then leadingZeros rest difficulty + 1 else 0

/-! ## hash_block -/

/-- The search loop from `nonce` on for at most `turns` turns: `some none` if it runs out of
turns, else the nonce with its hash. -/
def searchNonce (sha384 : Hash) (b : Block) :
    Nat → BitVec 32 → Option (Option (BitVec 32 × Digest))
  | 0, _ => some none
  | turns + 1, nonce => do
    let data ← b.data 129999 (some nonce)
    let newHash := sha384 data.chars
    if leadingZeros newHash.bytes DIFFICULTY = DIFFICULTY then return some (nonce, newHash)
    else searchNonce sha384 b turns (nonce + 1)

/-- `while (nonce < UINT32_MAX)` from 0: the `int` wraps to negative numbers in the middle,
and the comparison is unsigned. -/
def Block.search (sha384 : Hash) (b : Block) : Option (Option (BitVec 32 × Digest)) :=
  searchNonce sha384 b (2 ^ 32 - 1) 0

/-- `sprintf(b->block_hash_hex + i * 2, "%02x", b->block_hash[i])`: the `char` is signed. -/
def hexStep (arrays : Arrays) (i : Nat) : Option Arrays :=
  let c := arrays.bytes.getD (At.blockHash + i) 0
  arrays.strcpy (At.blockHashHex + 2 * i) (hex02 (c.signExtend 32).toNat)

def hexLoop (arrays : Arrays) : Option Arrays := (List.range 48).foldlM hexStep arrays

/-- `memcpy(b->block_hash, new_hash, SHA384_DIGEST_LENGTH)` -/
def Block.setHash (b : Block) (newHash : Digest) : Block where
  blockIndex := b.blockIndex
  arrays := b.arrays.write At.blockHash newHash.bytes (by rw [newHash.length_bytes]; decide)
  transactionCount := b.transactionCount
  timestamp := b.timestamp
  nonce := b.nonce

def hashBlock (sha384 : Hash) (b : Block) : Option Block := do
  let _ ← b.data 129999 none
  let mined := match ← b.search sha384 with
    | some (nonce, newHash) => { b.setHash newHash with nonce := nonce }
    | none => b
  let arrays ← hexLoop mined.arrays
  return { mined with arrays := arrays }

/-! ## verifications.c -/

def validateBlock (sha384 : Hash) (b : Block) (difficulty : Int) : Option Int := do
  let data ← b.data 29999 (some b.nonce)
  let calculatedHash := sha384 data.chars
  return if (leadingZeros calculatedHash.bytes difficulty.toNat : Int) = difficulty then 1 else 0

/-- `validate_blockchain` from the second block on, with the block before. -/
def validateLinks (previous : Block) : List Block → Option Int
  | [] => some 1
  | b :: rest => do
    let same ← strcmpZero (b.arrays.bytes.drop At.previousHash)
      (previous.arrays.bytes.drop At.blockHash)
    if same then validateLinks b rest else return 0

def validateBlockchain : List Block → Option Int
  | [] => some 1
  | b :: rest => validateLinks b rest

end Manhattan.Chain
