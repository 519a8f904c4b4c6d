import Manhattan.Chain.Block
import Manhattan.Library.Conversions
import Manhattan.Library.Pieces

/-! # Signing and validating a transaction

`sign_transaction` fills the signature field with the hexadecimal text of a Dilithium2
signature of one hash of the transaction; `validate_transaction` compares the field with the
bytes of another hash. No signature is accepted for what it is, and a field that holds the
hash is accepted without any key.
-/

namespace Manhattan.Chain

open Library.CStrings Library.Conversions

/-! ## struct transaction -/

structure Address where
  text : CString
  fits : text.length < 72

abbrev SignatureField := Region 4841

abbrev PrivateKey := Region 5057

abbrev PublicKey := Region 2625

structure Transaction where
  sender : Address
  recipient : Address
  amount : LongDouble
  signature : SignatureField

/-- Dilithium2: signing, with the random bytes that it draws, gives a status and what is then in
the buffer for the signature; verifying gives a status. -/
structure Scheme where
  sign : (random message privateKey : List Byte) → Int × Region 2420
  verify : (message signature publicKey : List Byte) → Int

def OQS_SUCCESS : Int := 0

def OQS_ERROR : Int := -1

/-! ## sign_transaction -/

/-- The last turn for an odd `hexLen` converts the NUL. -/
def hexToBin (hex : List Byte) (hexLen : Nat) : List Byte :=
  (List.range ((hexLen + 1) / 2)).map fun i =>
    BitVec.ofInt 8 (strtolHex [hex.getD (2 * i) 0, hex.getD (2 * i + 1) 0])

/-- What the library reads of `private_key_bin`; the byte that `hex_to_bin` puts behind the array
is not part of it. -/
def PrivateKey.bin (privateKey : PrivateKey) : List Byte :=
  (hexToBin privateKey.bytes 5057).take 2528

def PublicKey.bin (publicKey : PublicKey) : List Byte := (hexToBin publicKey.bytes 2625).take 1312

def colon : Byte := 58

/-- What goes into SHA3-384: `amount_str` has room for 19 characters. -/
def signedData (senderAddress receiverAddress : CString) (amount : LongDouble) : List Byte :=
  senderAddress.chars ++ colon :: receiverAddress.chars ++
    colon :: ((amount.print 8).take 19).chars

def signatureStep (tmpSignature : Region 2420) (signature : SignatureField) (i : Nat) :
    Option SignatureField :=
  signature.strcpy (2 * i) (hex02 (tmpSignature.bytes.getD i 0).toNat)

def signatureLoop (tmpSignature : Region 2420) (signature : SignatureField) :
    Option SignatureField :=
  (List.range 2420).foldlM (signatureStep tmpSignature) signature

def PrivateKey.cleanup (privateKey : PrivateKey) : PrivateKey :=
  privateKey.write 0 (List.replicate 2528 0) (by rw [List.length_replicate]; decide)

/-- What `sign_transaction` returns, nothing where it ends without a `return`, what it prints,
and what it leaves in the buffers. -/
structure Signing where
  returned : Option Int
  printed : List String
  privateKey : PrivateKey
  signature : SignatureField

def oqsFailed (name : String) (rc : Int) : List String :=
  ["ERROR: " ++ name ++ " failed!\n",
    "ERROR: OQS function failed with error code " ++ toString rc ++ ".\n"]

def signTransaction (sha3 : Hash) (scheme : Scheme) (random : List Byte)
    (senderAddress receiverAddress : CString) (amount : LongDouble) (privateKey : PrivateKey)
    (publicKey : PublicKey) (signature : SignatureField) : Option Signing := do
  if senderAddress.length = 0 ∨ senderAddress.length > 69 then
    return ⟨some (-1), ["ERROR: Invalid sender address. Too short.\n"], privateKey, signature⟩
  -- the source makes this comparison twice
  if receiverAddress.length > 69 ∨ receiverAddress.length > 69 then
    return ⟨some (-1), ["ERROR: Invalid receiver address. Too long.\n"], privateKey, signature⟩
  if (← privateKey.string 0).length ≠ 5056 then
    return ⟨some (-1), ["ERROR: Invalid private key.\n"], privateKey, signature⟩
  if (← publicKey.string 0).length ≠ 2624 then
    return ⟨some (-1), ["ERROR: Invalid public key.\n"], privateKey, signature⟩
  let messageDigest := sha3 (signedData senderAddress receiverAddress amount)
  let (rc, tmpSignature) := scheme.sign random messageDigest.bytes (PrivateKey.bin privateKey)
  if rc ≠ OQS_SUCCESS then
    return ⟨some OQS_ERROR, oqsFailed "OQS_SIG_dilithium_2_sign" rc,
      PrivateKey.cleanup privateKey, signature⟩
  let rc := scheme.verify messageDigest.bytes tmpSignature.bytes (PublicKey.bin publicKey)
  if rc ≠ OQS_SUCCESS then
    return ⟨some OQS_ERROR, oqsFailed "OQS_SIG_dilithium_2_verify" rc,
      PrivateKey.cleanup privateKey, signature⟩
  let signature ← signatureLoop tmpSignature signature
  return ⟨none, ["Signature OK!"], privateKey, signature⟩

/-! ## validate_transaction -/

/-- `"%s%s%Lf"` -/
def hashedData (sender recipient : CString) (amount : LongDouble) : CString :=
  sender ++ recipient ++ amount.print 6

def validateTransaction (sha384 : Hash) (t : Transaction) : Option Int := do
  let data ← sprintf 9999 (hashedData t.sender.text t.recipient.text t.amount)
  let hash := sha384 data.chars
  return if hash.bytes = t.signature.bytes.take 48 then 1 else 0

theorem length_hashedData_lt (sender recipient : Address) (amount : LongDouble) :
    (hashedData sender.text recipient.text amount).length < 9999 := by
  have hSender := sender.fits
  have hRecipient := recipient.fits
  have hAmount := amount.length_print_le 6
  rw [hashedData, CString.length_append, CString.length_append]
  omega

theorem validateTransaction_eq (sha384 : Hash) (t : Transaction) :
    validateTransaction sha384 t =
      some (if (sha384 (hashedData t.sender.text t.recipient.text t.amount).chars).bytes =
        t.signature.bytes.take 48 then 1 else 0) := by
  rw [validateTransaction, sprintf_of_lt (length_hashedData_lt _ _ _)]
  rfl

/-! ## What the loop writes -/

def hexByte (b : Byte) : List Byte := (hex02 b.toNat).chars

theorem length_hexByte (b : Byte) : (hexByte b).length = 2 :=
  Nat.le_antisymm (length_hex02_le (Nat.le_refl 2) b.isLt) (two_le_length_hex02 b.toNat)

def lowerHexDigits : List Byte := (List.range 16).map hexDigit

theorem mem_hexByte {b c : Byte} (h : c ∈ hexByte b) : c ∈ lowerHexDigits := by
  have hZero : (48 : Byte) ∈ lowerHexDigits := by decide
  rcases List.mem_append.mp h with hPad | hDigit
  · rwa [List.eq_of_mem_replicate hPad]
  · obtain ⟨d, hd, rfl⟩ := List.mem_map.mp hDigit
    have hBound := Nat.digits_lt_base (by decide) (List.mem_reverse.mp hd)
    exact List.mem_map_of_mem (List.mem_range.mpr hBound)

theorem signatureSteps (tmpSignature : Region 2420) (signature : SignatureField) {n : Nat}
    (hn : n ≤ 2420) :
    ∃ signature', (List.range n).foldlM (signatureStep tmpSignature) signature =
        some signature' ∧
      signature'.bytes.take (2 * n) = (tmpSignature.bytes.take n).flatMap hexByte := by
  have hStep : ∀ (r : SignatureField) i b, tmpSignature.bytes[i]? = some b →
      signatureStep tmpSignature r i = r.strcpy (0 + 2 * i) (hex02 b.toNat) := by
    intro r i b hb
    rw [signatureStep, List.getD_eq_getElem?_getD, hb, Option.getD_some, Nat.zero_add]
  have hInside : n ≤ tmpSignature.bytes.length := by rwa [tmpSignature.length_bytes]
  obtain ⟨signature', hLoop, hWritten⟩ :=
    Region.exists_written length_hexByte hStep signature hInside (by omega)
  have hFront := hWritten.front
  rw [CString.length_flatMap length_hexByte, List.length_take_of_le hInside] at hFront
  exact ⟨signature', hLoop, hFront⟩

theorem signatureLoop_eq (tmpSignature : Region 2420) (signature : SignatureField) :
    ∃ signature', signatureLoop tmpSignature signature = some signature' ∧
      signature'.bytes.take 4840 = tmpSignature.bytes.flatMap hexByte := by
  obtain ⟨signature', hLoop, hText⟩ := signatureSteps tmpSignature signature (Nat.le_refl 2420)
  refine ⟨signature', hLoop, hText.trans ?_⟩
  rw [List.take_of_length_le tmpSignature.length_bytes.le]

theorem mem_signatureLoop {tmpSignature : Region 2420} {signature signature' : SignatureField}
    (h : signatureLoop tmpSignature signature = some signature') {b : Byte}
    (hb : b ∈ signature'.bytes.take 4840) : b ∈ lowerHexDigits := by
  obtain ⟨_, hLoop, hText⟩ := signatureLoop_eq tmpSignature signature
  rw [h] at hLoop
  obtain rfl := Option.some.inj hLoop
  rw [hText] at hb
  obtain ⟨_, _, hDigit⟩ := List.mem_flatMap.mp hb
  exact mem_hexByte hDigit

/-! ## Signed and accepted -/

def Complete (sha384 sha3 : Hash) (scheme : Scheme) (sender recipient : Address)
    (amount : LongDouble) (privateKey : PrivateKey) (publicKey : PublicKey) : Prop :=
  ∀ random before signing, signTransaction sha3 scheme random sender.text recipient.text amount
      privateKey publicKey before = some signing → signing.returned = none →
    validateTransaction sha384 ⟨sender, recipient, amount, signing.signature⟩ = some 1

/-- What is accepted is the text of a signature that the key made of some message. -/
def Sound (sha384 : Hash) (scheme : Scheme) (sender recipient : Address) (amount : LongDouble)
    (privateKey : PrivateKey) : Prop :=
  ∀ signature, validateTransaction sha384 ⟨sender, recipient, amount, signature⟩ = some 1 →
    ∃ random message tmpSignature before,
      scheme.sign random message (PrivateKey.bin privateKey) = (OQS_SUCCESS, tmpSignature) ∧
      signatureLoop tmpSignature before = some signature

/-- The hash of the transaction, then bytes that are no digits. -/
def forged (digest : Digest) : SignatureField where
  bytes := digest.bytes ++ List.replicate 4793 255
  length_bytes := by rw [List.length_append, digest.length_bytes, List.length_replicate]

theorem forged_accepted (sha384 : Hash) (sender recipient : Address) (amount : LongDouble) :
    validateTransaction sha384 ⟨sender, recipient, amount,
      forged (sha384 (hashedData sender.text recipient.text amount).chars)⟩ = some 1 := by
  rw [validateTransaction_eq]
  exact congrArg some (if_pos (List.take_left' (Digest.length_bytes _)).symm)

theorem forged_not_signed (digest : Digest) (tmpSignature : Region 2420)
    (before : SignatureField) : signatureLoop tmpSignature before ≠ some (forged digest) := by
  intro h
  have hMem : (255 : Byte) ∈ (forged digest).bytes.take 4840 := by
    rw [forged, List.take_append, List.take_replicate]
    apply List.mem_append_right
    rw [digest.length_bytes]
    exact List.mem_replicate.mpr ⟨by decide, rfl⟩
  have hDigit := mem_signatureLoop h hMem
  revert hDigit
  decide

theorem not_sound (sha384 : Hash) (scheme : Scheme) (sender recipient : Address)
    (amount : LongDouble) (privateKey : PrivateKey) :
    ¬Sound sha384 scheme sender recipient amount privateKey := by
  intro h
  obtain ⟨_, _, tmpSignature, before, _, hLoop⟩ :=
    h _ (forged_accepted sha384 sender recipient amount)
  exact forged_not_signed _ tmpSignature before hLoop

/-! ## What a signing that succeeds has checked -/

structure SigningChecks (sha3 : Hash) (scheme : Scheme) (random : List Byte)
    (senderAddress receiverAddress : CString) (amount : LongDouble) (privateKey : PrivateKey)
    (publicKey : PublicKey) : Prop where
  sender : 0 < senderAddress.length ∧ senderAddress.length ≤ 69
  receiver : receiverAddress.length ≤ 69
  privateText : ∃ text, privateKey.string 0 = some text ∧ text.length = 5056
  publicText : ∃ text, publicKey.string 0 = some text ∧ text.length = 2624
  signed : (scheme.sign random (sha3 (signedData senderAddress receiverAddress amount)).bytes
    (PrivateKey.bin privateKey)).1 = OQS_SUCCESS
  verified : scheme.verify (sha3 (signedData senderAddress receiverAddress amount)).bytes
    (scheme.sign random (sha3 (signedData senderAddress receiverAddress amount)).bytes
      (PrivateKey.bin privateKey)).2.bytes (PublicKey.bin publicKey) = OQS_SUCCESS

theorem later_of_returned {c : Prop} [Decidable c] {failed signing : Signing}
    {later : Option Signing} (h : (if c then some failed else later) = some signing)
    (hReturned : signing.returned = none) (hFailed : failed.returned ≠ none) :
    ¬c ∧ later = some signing := by
  split at h
  · obtain rfl := Option.some.inj h
    exact absurd hReturned hFailed
  · exact ⟨‹_›, h⟩

section

variable {sha3 : Hash} {scheme : Scheme} {random : List Byte}
  {senderAddress receiverAddress : CString} {amount : LongDouble} {privateKey : PrivateKey}
  {publicKey : PublicKey} {before : SignatureField} {signing : Signing}

theorem signing_of_success (h : signTransaction sha3 scheme random senderAddress receiverAddress
      amount privateKey publicKey before = some signing) (hReturned : signing.returned = none) :
    SigningChecks sha3 scheme random senderAddress receiverAddress amount privateKey publicKey ∧
      ∃ tmpSignature, signatureLoop tmpSignature before = some signing.signature := by
  obtain ⟨hSender, h⟩ := later_of_returned h hReturned nofun
  obtain ⟨hReceiver, h⟩ := later_of_returned h hReturned nofun
  obtain ⟨privateText, hPrivate, h⟩ := Option.bind_eq_some_iff.mp h
  obtain ⟨hPrivateLength, h⟩ := later_of_returned h hReturned nofun
  obtain ⟨publicText, hPublic, h⟩ := Option.bind_eq_some_iff.mp h
  obtain ⟨hPublicLength, h⟩ := later_of_returned h hReturned nofun
  obtain ⟨hSigned, h⟩ := later_of_returned h hReturned nofun
  obtain ⟨hVerified, h⟩ := later_of_returned h hReturned nofun
  obtain ⟨_, hLoop, h⟩ := Option.bind_eq_some_iff.mp h
  obtain rfl := Option.some.inj h
  refine ⟨⟨by omega, by omega, ⟨privateText, hPrivate, not_not.mp hPrivateLength⟩,
    ⟨publicText, hPublic, not_not.mp hPublicLength⟩, not_not.mp hSigned,
    not_not.mp hVerified⟩, _, hLoop⟩

theorem signature_of_branch {c : Prop} [Decidable c] {failed : Signing} {later : Option Signing}
    (h : (if c then some failed else later) = some signing) (hFailed : failed.signature = before)
    (hLater : later = some signing → signing.signature = before) : signing.signature = before := by
  split at h
  · obtain rfl := Option.some.inj h
    exact hFailed
  · exact hLater h

theorem signature_of_failed (h : signTransaction sha3 scheme random senderAddress receiverAddress
      amount privateKey publicKey before = some signing) (hReturned : signing.returned ≠ none) :
    signing.signature = before := by
  refine signature_of_branch h rfl fun h => ?_
  refine signature_of_branch h rfl fun h => ?_
  obtain ⟨_, -, h⟩ := Option.bind_eq_some_iff.mp h
  refine signature_of_branch h rfl fun h => ?_
  obtain ⟨_, -, h⟩ := Option.bind_eq_some_iff.mp h
  refine signature_of_branch h rfl fun h => ?_
  refine signature_of_branch h rfl fun h => ?_
  refine signature_of_branch h rfl fun h => ?_
  obtain ⟨_, -, h⟩ := Option.bind_eq_some_iff.mp h
  obtain rfl := Option.some.inj h
  exact absurd rfl hReturned

/-- Signed or not, the call comes back when both keys end inside their arrays. -/
theorem exists_signTransaction {privateText publicText : CString}
    (hPrivate : privateKey.string 0 = some privateText)
    (hPublic : publicKey.string 0 = some publicText) :
    ∃ signing, signTransaction sha3 scheme random senderAddress receiverAddress amount
      privateKey publicKey before = some signing := by
  obtain ⟨signature, hLoop, _⟩ := signatureLoop_eq
    (scheme.sign random (sha3 (signedData senderAddress receiverAddress amount)).bytes
      (PrivateKey.bin privateKey)).2 before
  simp only [signTransaction, hPrivate, hPublic, hLoop, Option.bind_eq_bind, Option.bind_some]
  split_ifs <;> exact ⟨_, rfl⟩

theorem SigningChecks.exists_signing (h : SigningChecks sha3 scheme random senderAddress
      receiverAddress amount privateKey publicKey) (before : SignatureField) :
    ∃ signing, signTransaction sha3 scheme random senderAddress receiverAddress amount
      privateKey publicKey before = some signing ∧ signing.returned = none := by
  obtain ⟨hSender, hReceiver, ⟨_, hPrivate, hPrivateLength⟩, ⟨_, hPublic, hPublicLength⟩,
    hSigned, hVerified⟩ := h
  obtain ⟨tmpSignature, hSign⟩ : ∃ tmpSignature, scheme.sign random
      (sha3 (signedData senderAddress receiverAddress amount)).bytes
      (PrivateKey.bin privateKey) = (OQS_SUCCESS, tmpSignature) := ⟨_, Prod.ext hSigned rfl⟩
  rw [hSign] at hVerified
  obtain ⟨signature, hLoop, _⟩ := signatureLoop_eq tmpSignature before
  have hSenderChecks : ¬(senderAddress.length = 0 ∨ senderAddress.length > 69) := by omega
  have hReceiverChecks : ¬(receiverAddress.length > 69 ∨ receiverAddress.length > 69) := by omega
  refine ⟨⟨none, ["Signature OK!"], privateKey, signature⟩, ?_, rfl⟩
  simp only [signTransaction, if_neg hSenderChecks, if_neg hReceiverChecks, hPrivate, hPublic,
    hPrivateLength, hPublicLength, hSign, hVerified, hLoop, Option.bind_eq_bind,
    Option.bind_some, ne_eq, not_true_eq_false, if_false]
  rfl

end

/-- A signed transaction is rejected unless its SHA-384 hash spells digits. -/
theorem signed_rejected {sha384 sha3 : Hash} {scheme : Scheme} {random : List Byte}
    {sender recipient : Address} {amount : LongDouble} {privateKey : PrivateKey}
    {publicKey : PublicKey} {before : SignatureField} {signing : Signing}
    (h : signTransaction sha3 scheme random sender.text recipient.text amount privateKey
      publicKey before = some signing) (hReturned : signing.returned = none) {b : Byte}
    (hb : b ∈ (sha384 (hashedData sender.text recipient.text amount).chars).bytes)
    (hDigit : b ∉ lowerHexDigits) :
    validateTransaction sha384 ⟨sender, recipient, amount, signing.signature⟩ = some 0 := by
  obtain ⟨_, tmpSignature, hLoop⟩ := signing_of_success h hReturned
  rw [validateTransaction_eq, if_neg]
  intro hSame
  have hText : b ∈ signing.signature.bytes.take 48 := hSame ▸ hb
  apply hDigit
  apply mem_signatureLoop hLoop
  rw [← List.take_append_drop 48 (signing.signature.bytes.take 4840), List.take_take]
  exact List.mem_append_left _ hText

/-- For no transaction and no keys do the two functions agree. -/
theorem signer_verifier_disagree (sha384 sha3 : Hash) (scheme : Scheme)
    (sender recipient : Address) (amount : LongDouble) (privateKey : PrivateKey)
    (publicKey : PublicKey) :
    ¬(Complete sha384 sha3 scheme sender recipient amount privateKey publicKey ∧
      Sound sha384 scheme sender recipient amount privateKey) := by
  rintro ⟨_, hSound⟩
  exact not_sound sha384 scheme sender recipient amount privateKey hSound

def padded (message : List Byte) : Region 2420 where
  bytes := message.take 2420 ++ List.replicate (2420 - message.length) 0
  length_bytes := by
    rw [List.length_append, List.length_take, List.length_replicate]
    omega

/-- Signatures that repeat the message; every one that was made verifies. -/
def echoScheme : Scheme where
  sign _ message _ := (OQS_SUCCESS, padded message)
  verify message signature _ :=
    if signature = (padded message).bytes then OQS_SUCCESS else OQS_ERROR

theorem echoScheme_verifies (message publicKey : List Byte) :
    echoScheme.verify message (padded message).bytes publicKey = OQS_SUCCESS := if_pos rfl

def zerosText (n : Nat) : CString where
  chars := List.replicate n 48
  noNul h := absurd (List.eq_of_mem_replicate h) (by decide)

def zerosKey (n : Nat) : Region (n + 1) where
  bytes := (zerosText n).chars ++ [0]
  length_bytes := List.length_append.trans (congrArg Nat.succ List.length_replicate)

theorem zerosKey_string (n : Nat) : (zerosKey n).string 0 = some (zerosText n) :=
  scan_terminated (zerosText n) []

/-- One unit from "a" to "b": what was signed is rejected, and what nobody signed is accepted. -/
theorem signed_rejected_forged_accepted :
    let zeros : Digest := ⟨List.replicate 48 0, List.length_replicate⟩
    let hash : Hash := fun _ => zeros
    let sender : Address := ⟨⟨[97], by decide⟩, by decide⟩
    let recipient : Address := ⟨⟨[98], by decide⟩, by decide⟩
    let amount : LongDouble := .finite false (BitVec.ofNat 64 (2 ^ 63)) ⟨16382, by decide⟩
    let before : SignatureField := forged zeros
    (∀ random message privateKey publicKey,
      echoScheme.verify message (echoScheme.sign random message privateKey).2.bytes publicKey =
        OQS_SUCCESS) ∧
    (∃ signing, signTransaction hash echoScheme [] sender.text recipient.text amount
        (zerosKey 5056) (zerosKey 2624) before = some signing ∧ signing.returned = none ∧
      validateTransaction hash ⟨sender, recipient, amount, signing.signature⟩ = some 0) ∧
    validateTransaction hash ⟨sender, recipient, amount, forged zeros⟩ = some 1 ∧
    ∀ tmpSignature before, signatureLoop tmpSignature before ≠ some (forged zeros) := by
  intro zeros hash sender recipient amount before
  refine ⟨fun _ message _ publicKey => echoScheme_verifies message publicKey, ?_,
    forged_accepted hash sender recipient amount, forged_not_signed zeros⟩
  have hChecks : SigningChecks hash echoScheme [] sender.text recipient.text amount
      (zerosKey 5056) (zerosKey 2624) := by
    constructor
    · decide
    · decide
    · exact ⟨_, zerosKey_string 5056, List.length_replicate⟩
    · exact ⟨_, zerosKey_string 2624, List.length_replicate⟩
    · rfl
    · exact echoScheme_verifies _ _
  obtain ⟨signing, hSigning, hReturned⟩ := hChecks.exists_signing before
  have hZero : (0 : Byte) ∈ zeros.bytes := List.mem_replicate.mpr ⟨by decide, rfl⟩
  exact ⟨signing, hSigning, hReturned, signed_rejected hSigning hReturned hZero (by decide)⟩

end Manhattan.Chain
