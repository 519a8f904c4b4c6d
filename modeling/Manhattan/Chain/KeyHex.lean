import Manhattan.Chain.CreateTransaction
import Manhattan.Library.Pieces

/-! # Keys as hexadecimal texts

`generate_address` writes both keys of a pair into a struct, two digits for each byte, and from
there into `wallet.db`. `test_keys_in_wallet` and `sign_transaction` read them back with decoders
of their own.
-/

namespace Manhattan.Chain

open Library.CStrings Library.Conversions

/-! ## generate_address -/

/-- `snprintf(hex + (x * 2), 3, "%02X", key[x])` -/
def encodeStep {size : Nat} (offset : Nat) (key : List Byte) (hex : Region size) (x : Nat) :
    Option (Region size) :=
  hex.strcpy (offset + 2 * x) ((upperHex02 (key.getD x 0).toNat).take 2)

def encodeLoop {size : Nat} (offset : Nat) (key : List Byte) (hex : Region size) :
    Option (Region size) :=
  (List.range key.length).foldlM (encodeStep offset key) hex

/-- `h_wallet` up to the address: `public_key[2625]`, `private_key[5057]`, `address[72]` -/
abbrev HexWallet := Region 7754

namespace At

def publicKey : Nat := 0
def privateKey : Nat := 2625

end At

/-- Both memsets are done before. Each NUL behind a loop falls behind its array: on the private key
before that is written, and on the address. -/
def encodeKeys (hWallet : HexWallet) (publicKey : Region 1312) (privateKey : Region 2528) :
    Option HexWallet := do
  let hWallet := hWallet.write At.publicKey (List.replicate 2625 0)
    (by rw [List.length_replicate]; decide)
  let hWallet := hWallet.write At.privateKey (List.replicate 5057 0)
    (by rw [List.length_replicate]; decide)
  let hWallet ← encodeLoop At.publicKey publicKey.bytes hWallet
  let hWallet ← hWallet.strcpy (At.publicKey + 2625) .empty
  let hWallet ← encodeLoop At.privateKey privateKey.bytes hWallet
  hWallet.strcpy (At.privateKey + 5057) .empty

/-- `'%.5056s','%.2624s'`: the row that is inserted, with its address in base58. -/
def walletRow (hWallet : HexWallet) (address : CString) : Option WalletRow := do
  let privateKey ← hWallet.string At.privateKey
  let publicKey ← hWallet.string At.publicKey
  return ⟨some address, some (privateKey.take 5056), some (publicKey.take 2624)⟩

/-! ## test_keys_in_wallet -/

def hex2binFrom {size : Nat} (hexstring : CString) (p : Region size) (i : Nat) :
    Nat → Option (Int × Region size)
  | 0 => some (0, p)
  | turns + 1 =>
    -- nothing is known of the bytes behind the NUL
    if hexstring.length < 2 * i then none
    else
      match sscanfHex 2 (hexstring.drop (2 * i)).chars with
      | none => some (-1, p)
      | some x => do
        let p ← p.store i (x.setWidth 8)
        hex2binFrom hexstring p (i + 1) turns

def hex2bin {size : Nat} (p : Region size) (hexstring : CString) (len : Nat) :
    Option (Int × Region size) := hex2binFrom hexstring p 0 len

/-- An array of `strlen(hex) / 2` bytes, after `hex2bin`, whose result is not looked at. -/
def testedKey (uninit : ∀ size, Region size) (hex : CString) : Option (List Byte) := do
  let length := hex.length / 2
  let (_, key) ← hex2bin (uninit length) hex length
  return key.bytes

/-- The keys that `validate_key_pair` is called with for a row of the wallet. -/
def WalletRow.tested (uninitPublic uninitPrivate : ∀ size, Region size) (row : WalletRow) :
    Option (List Byte × List Byte) := do
  let publicKeyHex ← row.publicKey
  let privateKeyHex ← row.privateKey
  let publicKey ← testedKey uninitPublic publicKeyHex
  let privateKey ← testedKey uninitPrivate privateKeyHex
  return (publicKey, privateKey)

/-! ## One byte -/

def encoded (b : Byte) : CString := (upperHex02 b.toNat).take 2

theorem chars_encoded : ∀ b : Byte, (encoded b).chars =
    [upperHexDigit (b.toNat / 16), upperHexDigit (b.toNat % 16)] := by decide +kernel

theorem length_encoded (b : Byte) : (encoded b).length = 2 := by
  rw [CString.length, chars_encoded]
  rfl

theorem hexValue_upperHexDigit : ∀ d < 16, hexValue (upperHexDigit d) = some d := by decide

theorem div_sixteen_lt (b : Byte) : b.toNat / 16 < 16 := by omega

theorem mod_sixteen_lt (b : Byte) : b.toNat % 16 < 16 := Nat.mod_lt _ (by decide)

theorem sscanfHex_encoded_append (b : Byte) (more : List Byte) :
    sscanfHex 2 ((encoded b).chars ++ more) = some (b.setWidth 32) := by
  have hHigh := hexValue_upperHexDigit _ (div_sixteen_lt b)
  have hLow := hexValue_upperHexDigit _ (mod_sixteen_lt b)
  rw [chars_encoded]
  refine (sscanfHex_pair hHigh hLow more).trans ?_
  rw [Nat.div_add_mod, BitVec.ofNat_toNat]

theorem strtolHex_encoded (b : Byte) : BitVec.ofInt 8 (strtolHex (encoded b).chars) = b := by
  have hHigh := hexValue_upperHexDigit _ (div_sixteen_lt b)
  have hLow := hexValue_upperHexDigit _ (mod_sixteen_lt b)
  rw [chars_encoded, strtolHex_pair hHigh hLow, Nat.div_add_mod, BitVec.ofInt_natCast,
    BitVec.ofNat_toNat, BitVec.setWidth_eq]

/-! ## The loops -/

def keyText (key : List Byte) : CString := CString.flatMap encoded key

theorem length_keyText (key : List Byte) : (keyText key).length = 2 * key.length :=
  CString.length_flatMap length_encoded key

theorem encodeLoop_written {size offset : Nat} (key : List Byte) (hex : Region size)
    (hRoom : offset + 2 * key.length < size) :
    ∃ hex', encodeLoop offset key hex = some hex' ∧ hex.Written hex' offset (keyText key) := by
  have hStep : ∀ (r : Region size) x b, key[x]? = some b →
      encodeStep offset key r x = r.strcpy (offset + 2 * x) (encoded b) := by
    intro r x b hb
    rw [encodeStep, List.getD_eq_getElem?_getD, hb, Option.getD_some]
    rfl
  obtain ⟨hex', hLoop, hWritten⟩ :=
    Region.exists_written length_encoded hStep hex (Nat.le_refl _) hRoom
  rw [List.take_length] at hWritten
  exact ⟨hex', hLoop, hWritten⟩

def ScansAs (hexstring : CString) (key : List Byte) : Prop :=
  ∀ i (hi : i < key.length), 2 * i ≤ hexstring.length ∧
    sscanfHex 2 (hexstring.drop (2 * i)).chars = some (key[i].setWidth 32)

theorem hex2binFrom_scanned {size : Nat} {hexstring : CString} {key : List Byte}
    (hScan : ScansAs hexstring key) (hRoom : key.length ≤ size) {p : Region size} {i turns : Nat}
    (hTurns : i + turns = key.length) (hTake : p.bytes.take i = key.take i) :
    ∃ p', hex2binFrom hexstring p i turns = some (0, p') ∧ p'.bytes.take key.length = key := by
  induction turns generalizing p i with
  | zero =>
    obtain rfl : i = key.length := hTurns
    rw [List.take_length] at hTake
    exact ⟨p, rfl, hTake⟩
  | succ turns ih =>
    have hi : i < key.length := by omega
    obtain ⟨hPointer, hPair⟩ := hScan i hi
    obtain ⟨p', hStore, hTake'⟩ := p.exists_store hRoom hi hTake
    have hByte : (key[i].setWidth 32).setWidth 8 = key[i] := by simp
    rw [hex2binFrom, if_neg (Nat.not_lt.mpr hPointer), hPair]
    simp only [hByte, hStore, Option.bind_eq_bind, Option.bind_some]
    exact ih (by omega) hTake'

theorem scansAs_keyText (key : List Byte) : ScansAs (keyText key) key := by
  intro i hi
  have hText : ((keyText key).drop (2 * i)).chars =
      (encoded key[i]).chars ++ (keyText (key.drop (i + 1))).chars := by
    rw [keyText, CString.drop_flatMap length_encoded hi.le, List.drop_eq_getElem_cons hi]
    rfl
  rw [length_keyText, hText]
  exact ⟨by omega, sscanfHex_encoded_append _ _⟩

theorem hex2bin_keyText {key : List Byte} (p : Region key.length) :
    hex2bin p (keyText key) key.length = some (0, ⟨key, rfl⟩) := by
  obtain ⟨p', hResult, hTake⟩ :=
    hex2binFrom_scanned (scansAs_keyText key) (Nat.le_refl _) (p := p) (Nat.zero_add _) rfl
  obtain ⟨bytes, hLength⟩ := p'
  rw [List.take_of_length_le hLength.le] at hTake
  subst hTake
  exact hResult

/-- A turn of `hex_to_bin` on what is left of the text -/
def firstByte (text : List Byte) : Byte :=
  BitVec.ofInt 8 (strtolHex [text.getD 0 0, text.getD 1 0])

theorem firstByte_encoded (b : Byte) (more : List Byte) :
    firstByte ((encoded b).chars ++ more) = b := by
  have hByte := strtolHex_encoded b
  rw [chars_encoded] at hByte ⊢
  exact hByte

theorem hexToBin_keyText (key more : List Byte) :
    hexToBin ((keyText key).chars ++ more) (2 * key.length) = key := by
  have hHalf : (2 * key.length + 1) / 2 = key.length := by omega
  have hWhole := map_range_read length_encoded firstByte_encoded key more
  rw [hexToBin, hHalf]
  refine Eq.trans (List.map_congr_left fun i _ => ?_) hWhole
  simp [firstByte, keyText, CString.flatMap]

/-! ## The struct -/

/-- The first NUL behind an array is where the private key starts, and the second is where the
address starts. -/
theorem exists_encodeKeys (hWallet : HexWallet) (publicKey : Region 1312)
    (privateKey : Region 2528) :
    ∃ hWallet', encodeKeys hWallet publicKey privateKey = some hWallet' ∧
      hWallet'.string At.publicKey = some (keyText publicKey.bytes) ∧
      hWallet'.string At.privateKey = some (keyText privateKey.bytes) := by
  have hPublicLength : (keyText publicKey.bytes).length = 2624 := by
    rw [length_keyText, publicKey.length_bytes]
  have hPrivateLength : (keyText privateKey.bytes).length = 5056 := by
    rw [length_keyText, privateKey.length_bytes]
  have hPublicFits : (List.replicate 2625 (0 : Byte)).length = 2625 := List.length_replicate
  have hPrivateFits : (List.replicate 5057 (0 : Byte)).length = 5057 := List.length_replicate
  let first := hWallet.write At.publicKey (List.replicate 2625 0) (by rw [hPublicFits]; decide)
  let second := first.write At.privateKey (List.replicate 5057 0) (by rw [hPrivateFits]; decide)
  have hFirst : first.string At.publicKey = some .empty := by
    rw [Region.string, Region.drop_write_self]
    rfl
  have hSecond : second.string At.publicKey = some .empty :=
    Region.string_of_take_eq hFirst (by decide) (Region.take_write (Nat.le_refl At.privateKey))
  obtain ⟨third, hThird, hPublic⟩ := encodeLoop_written publicKey.bytes second
    (by rw [publicKey.length_bytes]; decide : At.publicKey + 2 * publicKey.bytes.length < 7754)
  obtain ⟨fourth, hFourth⟩ := third.exists_strcpy (At.publicKey + 2625) .empty (by decide)
  obtain ⟨fifth, hFifth, hPrivate⟩ := encodeLoop_written privateKey.bytes fourth
    (by rw [privateKey.length_bytes]; decide : At.privateKey + 2 * privateKey.bytes.length < 7754)
  obtain ⟨sixth, hSixth⟩ := fifth.exists_strcpy (At.privateKey + 5057) .empty (by decide)
  have hPublicText : third.string At.publicKey = some (keyText publicKey.bytes) :=
    hPublic.string hSecond
  have hPrivateText : fifth.string At.privateKey = some (keyText privateKey.bytes) :=
    hPrivate.string (Region.string_strcpy hFourth)
  have hEnd : At.publicKey + (keyText publicKey.bytes).length < At.privateKey := by
    rw [hPublicLength]
    decide
  refine ⟨sixth, ?_, ?_, ?_⟩
  · change (encodeLoop At.publicKey publicKey.bytes second).bind _ = _
    simp only [hThird, hFourth, hFifth, hSixth, Option.bind_eq_bind, Option.bind_some]
  · have hBefore := Region.string_strcpy_before hPublicText hEnd hFourth
    have hBehind := Region.string_of_take_eq hBefore hEnd hPrivate.before
    exact Region.string_strcpy_before hBehind (by rw [hPublicLength]; decide) hSixth
  · exact Region.string_strcpy_before hPrivateText (by rw [hPrivateLength]; decide) hSixth

/-! ## Both decoders -/

theorem testedKey_keyText (uninit : ∀ size, Region size) (key : List Byte) :
    testedKey uninit (keyText key) = some key := by
  have hHalf : (keyText key).length / 2 = key.length := by
    rw [length_keyText]
    omega
  rw [testedKey, hHalf, hex2bin_keyText]
  rfl

theorem take_hexToBin (hex : List Byte) (n : Nat) :
    (hexToBin hex (2 * n + 1)).take n = hexToBin hex (2 * n) := by
  have hOdd : (2 * n + 1 + 1) / 2 = n + 1 := by omega
  have hEven : (2 * n + 1) / 2 = n := by omega
  rw [hexToBin, hexToBin, hOdd, hEven, ← List.map_take, List.take_range,
    Nat.min_eq_left (Nat.le_succ n)]

theorem bin_keyField {key : List Byte} {n : Nat} (hKey : key.length = n) :
    (hexToBin (keyField (2 * n) ((keyText key).take (2 * n))).bytes (2 * n + 1)).take n = key := by
  subst hKey
  have hTake := CString.take_of_length_le (length_keyText key).le
  rw [take_hexToBin, hTake]
  change hexToBin (((keyText key).take (2 * key.length)).chars ++ _) _ = key
  rw [hTake]
  exact hexToBin_keyText key _

/-- The bytes of every key come back from both decoders; and from the wallet that
`generate_address` fills, `test_keys_in_wallet` and `sign_transaction` have the keys of the pair. -/
theorem key_hex_round_trip :
    (∀ k : List Byte, ∃ hex text,
      encodeLoop 0 k (Region.zeros (2 * k.length + 1)) = some hex ∧ hex.string 0 = some text ∧
        text.length = 2 * k.length ∧
        (∀ p : Region k.length, hex2bin p text k.length = some (0, ⟨k, rfl⟩)) ∧
        hexToBin hex.bytes (2 * k.length) = k) ∧
    ∀ (hWallet : HexWallet) (address : CString) (publicKey : Region 1312)
      (privateKey : Region 2528) (uninitPublic uninitPrivate : ∀ size, Region size),
      ∃ hWallet' row walletKeys, encodeKeys hWallet publicKey privateKey = some hWallet' ∧
        walletRow hWallet' address = some row ∧
        row.tested uninitPublic uninitPrivate = some (publicKey.bytes, privateKey.bytes) ∧
        row.keys = some walletKeys ∧ PublicKey.bin walletKeys.publicKey = publicKey.bytes ∧
        PrivateKey.bin walletKeys.privateKey = privateKey.bytes := by
  constructor
  · intro k
    obtain ⟨hex, hLoop, hWritten⟩ := encodeLoop_written k (Region.zeros (2 * k.length + 1))
      (by omega : 0 + 2 * k.length < 2 * k.length + 1)
    have hEmpty : (Region.zeros (2 * k.length + 1)).string 0 = some .empty := rfl
    have hText := hWritten.string hEmpty
    obtain ⟨rest, hBytes⟩ := exists_of_scan hText
    rw [List.drop_zero] at hBytes
    refine ⟨hex, keyText k, hLoop, hText, length_keyText k, hex2bin_keyText, ?_⟩
    rw [hBytes]
    exact hexToBin_keyText k (0 :: rest)
  · intro hWallet address publicKey privateKey uninitPublic uninitPrivate
    obtain ⟨hWallet', hEncode, hPublic, hPrivate⟩ := exists_encodeKeys hWallet publicKey privateKey
    have hPublicTake : (keyText publicKey.bytes).take 2624 = keyText publicKey.bytes :=
      CString.take_of_length_le (by rw [length_keyText, publicKey.length_bytes])
    have hPrivateTake : (keyText privateKey.bytes).take 5056 = keyText privateKey.bytes :=
      CString.take_of_length_le (by rw [length_keyText, privateKey.length_bytes])
    refine ⟨hWallet', ⟨some address, some ((keyText privateKey.bytes).take 5056),
      some ((keyText publicKey.bytes).take 2624)⟩, _, hEncode, ?_, ?_, rfl, ?_, ?_⟩
    · simp only [walletRow, hPublic, hPrivate, Option.bind_eq_bind, Option.bind_some]
      rfl
    · simp only [WalletRow.tested, hPublicTake, hPrivateTake, testedKey_keyText,
        Option.bind_eq_bind, Option.bind_some]
      rfl
    · exact bin_keyField publicKey.length_bytes
    · exact bin_keyField privateKey.length_bytes

end Manhattan.Chain
