import Manhattan.Chain.Base58
import Manhattan.Chain.KeyHex
import Manhattan.Chain.Validation

/-! # The rounds of generate_address

In each of five rounds a key pair is generated, its address is made and the pair is tested. What
the three functions return is printed or not looked at, and a row is inserted in any case. What the
libraries do in a round is an argument: the results of their calls, and what is in the buffers
behind a call that writes to them.
-/

namespace Manhattan.Chain

open Library.CStrings

/-! ## What is called in a round -/

/-- Whether `OQS_SIG_new` gives an object, the result of `OQS_SIG_keypair` and what is in both
buffers then. -/
structure KeyCalls where
  sig : Bool
  keypair : Int
  publicKey : Region 1312
  privateKey : Region 2528

/-- `address` is what is in the buffer behind an `EVP_DigestFinal_ex` that fails. -/
structure HashCalls where
  context : Bool
  init : Int
  update : Int
  final : Int
  addressLength : Nat
  address : Digest

structure TestCalls where
  sig : Bool
  sign : Int
  verify : Int

/-- `insert` tells whether `sqlite3_exec` returns SQLITE_OK. -/
structure RoundCalls where
  key : KeyCalls
  hash : HashCalls
  test : TestCalls
  insert : Bool

def generateKeyPair (calls : KeyCalls) : Int × Region 1312 × Region 2528 :=
  if !calls.sig then (2, Region.zeros 1312, Region.zeros 2528)
  else if calls.keypair ≠ OQS_SUCCESS then (3, calls.publicKey, calls.privateKey)
  else (0, calls.publicKey, calls.privateKey)

def generateNewAddress (sha3 : Hash) (calls : HashCalls) (publicKey : Region 1312) : Int × Digest :=
  if !calls.context then (2, zeroDigest)
  else if calls.init ≠ 1 then (3, zeroDigest)
  else if calls.update ≠ 1 then (4, zeroDigest)
  else if calls.final ≠ 1 ∨ calls.addressLength ≠ 48 then (5, calls.address)
  else (0, sha3 publicKey.bytes)

/-- The result, and the private key behind the call: `cleanup_stack` wipes it. -/
def validateKeyPair (calls : TestCalls) (privateKey : Region 2528) : Int × Region 2528 :=
  if !calls.sig then (2, privateKey)
  else if calls.sign ≠ OQS_SUCCESS then (1, Region.zeros 2528)
  else if calls.verify ≠ OQS_SUCCESS then (2, Region.zeros 2528)
  else (0, privateKey)

/-! ## generate_address -/

/-- A round: what the three functions return, the pair that is tested, and the row. -/
structure WalletRound where
  keyResult : Int
  addressResult : Int
  testResult : Int
  publicKey : Region 1312
  privateKey : Region 2528
  row : WalletRow

/-- The address is cleared in `h_wallet` before it is encoded, and has a field of its own here. -/
def walletRound (sha3 : Hash) (hWallet : HexWallet) (calls : RoundCalls) :
    Option (WalletRound × HexWallet) := do
  let (keyResult, publicKey, privateKey) := generateKeyPair calls.key
  let (addressResult, address) := generateNewAddress sha3 calls.hash publicKey
  let (testResult, leftKey) := validateKeyPair calls.test privateKey
  let hWallet ← encodeKeys hWallet publicKey leftKey
  let text ← insertedAddress address
  let row ← walletRow hWallet text
  return (⟨keyResult, addressResult, testResult, publicKey, privateKey, row⟩, hWallet)

/-- The rounds up to the first INSERT that fails: what is returned, and the rounds whose row is in
the table. -/
def walletRounds (sha3 : Hash) : List RoundCalls → HexWallet → Option (Int × List WalletRound)
  | [], _ => some (0, [])
  | calls :: rest, hWallet => do
    let (round, hWallet) ← walletRound sha3 hWallet calls
    if !calls.insert then return (1, [])
    let (returned, inserted) ← walletRounds sha3 rest hWallet
    return (returned, round :: inserted)

/-- `opened` and `created`: whether the database opens and the table is there. -/
def generateAddress (sha3 : Hash) (opened created : Bool) (rounds : Fin 5 → RoundCalls)
    (hWallet : HexWallet) : Option (Int × List WalletRound) :=
  if !opened then some (1, [])
  else if !created then some (1, [])
  else walletRounds sha3 (List.ofFn rounds) hWallet

/-! ## Which rounds are to insert a row -/

structure WalletRound.Tested (sha3 : Hash) (round : WalletRound) : Prop where
  generated : round.keyResult = 0
  addressed : round.addressResult = 0
  passed : round.testResult = 0
  row : round.row = ⟨some (base58 (sha3 round.publicKey.bytes).bytes),
    some (keyText round.privateKey.bytes), some (keyText round.publicKey.bytes)⟩

structure RoundCalls.Succeed (calls : RoundCalls) : Prop where
  keySig : calls.key.sig = true
  keypair : calls.key.keypair = OQS_SUCCESS
  context : calls.hash.context = true
  init : calls.hash.init = 1
  update : calls.hash.update = 1
  final : calls.hash.final = 1 ∧ calls.hash.addressLength = 48
  testSig : calls.test.sig = true
  sign : calls.test.sign = OQS_SUCCESS
  verify : calls.test.verify = OQS_SUCCESS

theorem generateKeyPair_eq_zero_iff (calls : KeyCalls) :
    (generateKeyPair calls).1 = 0 ↔ calls.sig = true ∧ calls.keypair = OQS_SUCCESS := by
  unfold generateKeyPair
  split_ifs <;> simp_all

theorem generateNewAddress_eq_zero_iff (sha3 : Hash) (calls : HashCalls)
    (publicKey : Region 1312) : (generateNewAddress sha3 calls publicKey).1 = 0 ↔
      calls.context = true ∧ calls.init = 1 ∧ calls.update = 1 ∧
        calls.final = 1 ∧ calls.addressLength = 48 := by
  unfold generateNewAddress
  split_ifs with hContext hInit hUpdate hFinal
  · simp_all
  · simp_all
  · simp_all
  · have hFive : (5 : Int) ≠ 0 := by decide
    exact iff_of_false hFive fun h => hFinal.elim (· h.2.2.2.1) (· h.2.2.2.2)
  · simp_all

theorem validateKeyPair_eq_zero_iff (calls : TestCalls) (privateKey : Region 2528) :
    (validateKeyPair calls privateKey).1 = 0 ↔
      calls.sig = true ∧ calls.sign = OQS_SUCCESS ∧ calls.verify = OQS_SUCCESS := by
  unfold validateKeyPair
  split_ifs <;> simp_all

/-! ## One round -/

/-- What a round leaves, whatever the structs held before. -/
def RoundCalls.round (sha3 : Hash) (calls : RoundCalls) : WalletRound :=
  let (keyResult, publicKey, privateKey) := generateKeyPair calls.key
  let (addressResult, address) := generateNewAddress sha3 calls.hash publicKey
  let (testResult, leftKey) := validateKeyPair calls.test privateKey
  ⟨keyResult, addressResult, testResult, publicKey, privateKey,
    ⟨some (base58 address.bytes), some (keyText leftKey.bytes), some (keyText publicKey.bytes)⟩⟩

theorem walletRow_eq {hWallet : HexWallet} {publicKey : Region 1312} {privateKey : Region 2528}
    (hPublic : hWallet.string At.publicKey = some (keyText publicKey.bytes))
    (hPrivate : hWallet.string At.privateKey = some (keyText privateKey.bytes))
    (address : CString) : walletRow hWallet address =
      some ⟨some address, some (keyText privateKey.bytes), some (keyText publicKey.bytes)⟩ := by
  have hPublicTake : (keyText publicKey.bytes).take 2624 = keyText publicKey.bytes :=
    CString.take_of_length_le (by rw [length_keyText, publicKey.length_bytes])
  have hPrivateTake : (keyText privateKey.bytes).take 5056 = keyText privateKey.bytes :=
    CString.take_of_length_le (by rw [length_keyText, privateKey.length_bytes])
  simp only [walletRow, hPublic, hPrivate, hPublicTake, hPrivateTake, Option.bind_eq_bind,
    Option.bind_some]
  rfl

theorem exists_walletRound (sha3 : Hash) (hWallet : HexWallet) (calls : RoundCalls) :
    ∃ hWallet', walletRound sha3 hWallet calls = some (calls.round sha3, hWallet') := by
  let publicKey := (generateKeyPair calls.key).2.1
  let leftKey := (validateKeyPair calls.test (generateKeyPair calls.key).2.2).2
  obtain ⟨hWallet', hEncode, hPublic, hPrivate⟩ := exists_encodeKeys hWallet publicKey leftKey
  refine ⟨hWallet', ?_⟩
  simp only [publicKey, leftKey] at hEncode hPublic hPrivate
  simp only [walletRound, hEncode, insertedAddress_eq, walletRow_eq hPublic hPrivate,
    Option.bind_eq_bind, Option.bind_some]
  rfl

theorem tested_iff (sha3 : Hash) (calls : RoundCalls) :
    (calls.round sha3).Tested sha3 ↔ calls.Succeed := by
  have hKey := generateKeyPair_eq_zero_iff calls.key
  have hAddress := generateNewAddress_eq_zero_iff sha3 calls.hash (generateKeyPair calls.key).2.1
  have hTest := validateKeyPair_eq_zero_iff calls.test (generateKeyPair calls.key).2.2
  constructor
  · rintro ⟨hGenerated, hAddressed, hPassed, -⟩
    obtain ⟨hKeySig, hKeypair⟩ := hKey.mp hGenerated
    obtain ⟨hContext, hInit, hUpdate, hFinal⟩ := hAddress.mp hAddressed
    obtain ⟨hTestSig, hSign, hVerify⟩ := hTest.mp hPassed
    exact ⟨hKeySig, hKeypair, hContext, hInit, hUpdate, hFinal, hTestSig, hSign, hVerify⟩
  · intro h
    refine ⟨hKey.mpr ⟨h.keySig, h.keypair⟩,
      hAddress.mpr ⟨h.context, h.init, h.update, h.final⟩,
      hTest.mpr ⟨h.testSig, h.sign, h.verify⟩, ?_⟩
    simp [RoundCalls.round, generateNewAddress, validateKeyPair, h.context, h.init, h.update,
      h.final, h.testSig, h.sign, h.verify]

/-! ## All rounds -/

theorem walletRounds_eq (sha3 : Hash) (rounds : List RoundCalls) (hWallet : HexWallet) :
    ∃ returned, walletRounds sha3 rounds hWallet =
      some (returned, (rounds.takeWhile RoundCalls.insert).map (RoundCalls.round sha3)) := by
  induction rounds generalizing hWallet with
  | nil => exact ⟨0, rfl⟩
  | cons calls rest ih =>
    obtain ⟨hWallet', hRound⟩ := exists_walletRound sha3 hWallet calls
    obtain ⟨returned, hRest⟩ := ih hWallet'
    simp only [walletRounds, hRound, Option.bind_eq_bind, Option.bind_some]
    cases hInsert : calls.insert with
    | false =>
      rw [List.takeWhile_cons_of_neg (by rw [hInsert]; decide)]
      exact ⟨1, rfl⟩
    | true =>
      rw [List.takeWhile_cons_of_pos hInsert, hRest]
      exact ⟨returned, rfl⟩

def insertingRounds (opened created : Bool) (rounds : Fin 5 → RoundCalls) : List RoundCalls :=
  if opened && created then (List.ofFn rounds).takeWhile RoundCalls.insert else []

theorem exists_generateAddress (sha3 : Hash) (opened created : Bool) (rounds : Fin 5 → RoundCalls)
    (hWallet : HexWallet) : ∃ returned, generateAddress sha3 opened created rounds hWallet =
      some (returned, (insertingRounds opened created rounds).map (RoundCalls.round sha3)) := by
  unfold generateAddress insertingRounds
  cases opened with
  | false => exact ⟨1, rfl⟩
  | true =>
    cases created with
    | false => exact ⟨1, rfl⟩
    | true => exact walletRounds_eq sha3 (List.ofFn rounds) hWallet

/-- Only tested pairs come into the table if and only if no call of the libraries fails in a round
whose row is inserted. -/
theorem inserted_tested_iff (sha3 : Hash) (opened created : Bool) (rounds : Fin 5 → RoundCalls)
    (hWallet : HexWallet) : ∃ returned inserted,
      generateAddress sha3 opened created rounds hWallet = some (returned, inserted) ∧
      ((∀ round ∈ inserted, round.Tested sha3) ↔
        ∀ calls ∈ insertingRounds opened created rounds, calls.Succeed) := by
  obtain ⟨returned, hRun⟩ := exists_generateAddress sha3 opened created rounds hWallet
  refine ⟨returned, _, hRun, ?_⟩
  rw [List.forall_mem_map]
  simp only [tested_iff]

/-! ## A round that fails -/

/-- No signature object can be made. -/
def withoutSignatures : RoundCalls where
  key := ⟨false, 0, Region.zeros 1312, Region.zeros 2528⟩
  hash := ⟨true, 1, 1, 1, 48, zeroDigest⟩
  test := ⟨false, 0, 0⟩
  insert := true

/-- The later rounds repeat the address of the first, and their INSERT fails. -/
def failingRounds (i : Fin 5) : RoundCalls := { withoutSignatures with insert := i.val = 0 }

/-- A row with two keys of zeros is inserted, though no key was generated or tested. -/
theorem withoutSignatures_inserted :
    ∃ returned inserted, generateAddress (fun _ => zeroDigest) true true failingRounds
        (Region.zeros 7754) = some (returned, inserted) ∧
      ∃ round ∈ inserted, round.keyResult = 2 ∧ round.testResult = 2 ∧
        ¬round.Tested fun _ => zeroDigest := by
  obtain ⟨returned, hRun⟩ := exists_generateAddress (fun _ => zeroDigest) true true failingRounds
    (Region.zeros 7754)
  have hFirst : failingRounds 0 ∈ insertingRounds true true failingRounds := List.mem_cons_self
  refine ⟨returned, _, hRun, _, List.mem_map_of_mem hFirst, rfl, rfl, ?_⟩
  intro hTested
  exact absurd hTested.generated (by decide)

end Manhattan.Chain
