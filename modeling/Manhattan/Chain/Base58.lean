import Manhattan.Chain.Transactions
import Manhattan.Library.Positional

/-! # Addresses in base58

`generate_address` prints the digest of a public key in base58, with a capacity of 69 into an array
of 72 bytes, and inserts at most 69 characters of it into `wallet.db`, whose rows have the address
as their key. `sign_transaction` takes addresses of up to 69 characters.
-/

namespace Manhattan.Chain

open Library.CStrings Library.Conversions Library.Positional

/-! ## b58enc -/

def b58digitsOrdered : CString :=
  CString.ascii "123456789ABCDEFGHJKLMNPQRSTUVWXYZabcdefghijkmnopqrstuvwxyz"

def b58digit (d : Nat) : Byte := b58digitsOrdered.chars.getD d 0

/-- What `b58enc` returns, `*b58sz` behind the call, and what is written to `b58`. -/
structure Encoding where
  returned : Bool
  b58sz : Nat
  written : List Byte
  deriving DecidableEq

def b58enc (b58sz : Nat) (bin : List Byte) : Encoding :=
  let zcount := (bin.takeWhile (· = 0)).length
  let size := (bin.length - zcount) * 138 / 100 + 1
  -- for (i = zcount, high = size - 1; i < binsz; ++i, high = j)
  let (buf, _) := ((bin.drop zcount).map BitVec.toNat).foldl (convertStep 58 256 (size - 1))
    (List.replicate size 0, size - 1)
  let j := (buf.takeWhile (· = 0)).length
  if b58sz ≤ zcount + size - j then ⟨false, zcount + size - j + 1, []⟩
  else ⟨true, zcount + size - j + 1,
    List.replicate zcount 49 ++ ((buf.drop j).map b58digit ++ [0])⟩

/-! ## generate_address -/

/-- `memset`, `b58enc` with `base58_address_len = 69`, and `h_wallet.address[69] = '\0'` -/
def addressField (address : Digest) : Option (Region 72) :=
  let written := (b58enc 69 address.bytes).written
  if h : 0 + written.length ≤ 72 then ((Region.zeros 72).write 0 written h).store 69 0 else none

/-- `'%.69s'` -/
def insertedAddress (address : Digest) : Option CString := do
  let field ← addressField address
  let text ← field.string 0
  return text.take 69

/-! ## The digits -/

def bigEndian (bin : List Byte) : Nat := value 256 (bin.map BitVec.toNat)

/-- A `1` for each zero in front, and the digits of the number to the base 58. -/
def base58Text (bin : List Byte) : List Byte :=
  List.replicate (bin.takeWhile (· = 0)).length 49 ++
    (Nat.digits 58 (bigEndian bin)).reverse.map b58digit

theorem drop_length_takeWhile {α : Type} (p : α → Bool) (l : List α) :
    l.drop (l.takeWhile p).length = l.dropWhile p := by
  have hSplit := @List.drop_left _ (l.takeWhile p) (l.dropWhile p)
  rwa [List.takeWhile_append_dropWhile] at hSplit

/-- 138 digits to the base 58 hold 100 bytes. -/
theorem pow_bytes_le (k : Nat) : 256 ^ k ≤ 58 ^ (k * 138 / 100 + 1) := by
  have hHundred : 256 ^ 100 ≤ 58 ^ 138 := by norm_num
  have hRoom : 138 * k ≤ (k * 138 / 100 + 1) * 100 := by omega
  rw [← Nat.pow_le_pow_iff_left (by decide : 100 ≠ 0)]
  calc
    (256 ^ k) ^ 100 = (256 ^ 100) ^ k := by rw [← pow_mul, ← pow_mul, Nat.mul_comm]
    _ ≤ (58 ^ 138) ^ k := Nat.pow_le_pow_left hHundred k
    _ = 58 ^ (138 * k) := (pow_mul 58 138 k).symm
    _ ≤ 58 ^ ((k * 138 / 100 + 1) * 100) := Nat.pow_le_pow_right (by decide) hRoom
    _ = (58 ^ (k * 138 / 100 + 1)) ^ 100 := pow_mul _ _ _

theorem pow_bytes_pred_le (k : Nat) : 256 ^ (k - 1) ≤ 58 ^ (k * 138 / 100) := by
  cases k with
  | zero => decide
  | succ k =>
    refine (pow_bytes_le k).trans (Nat.pow_le_pow_right (by decide) ?_)
    omega

theorem toNat_lt_of_mem {bin : List Byte} {d : Nat} (h : d ∈ bin.map BitVec.toNat) : d < 256 := by
  obtain ⟨b, _, rfl⟩ := List.mem_map.mp h
  exact b.isLt

theorem bigEndian_append_zeros (n : Nat) (bin : List Byte) :
    bigEndian (List.replicate n 0 ++ bin) = bigEndian bin := by
  have hZeros : (List.replicate n (0 : Byte)).map BitVec.toNat = List.replicate n 0 :=
    List.map_replicate
  rw [bigEndian, List.map_append, hZeros, value_append, value_replicate, Nat.mul_zero,
    Nat.zero_add, bigEndian]

theorem bigEndian_dropWhile (bin : List Byte) :
    bigEndian (bin.dropWhile (· = 0)) = bigEndian bin := by
  conv => rhs; rw [← replicate_append_dropWhile 0 bin]
  exact (bigEndian_append_zeros _ _).symm

theorem b58enc_eq (b58sz : Nat) (bin : List Byte) :
    b58enc b58sz bin =
      if b58sz ≤ (base58Text bin).length then ⟨false, (base58Text bin).length + 1, []⟩
      else ⟨true, (base58Text bin).length + 1, base58Text bin ++ [0]⟩ := by
  have hDrop := drop_length_takeWhile (· = 0) bin
  have hRest : (bin.drop (bin.takeWhile (· = 0)).length).length =
      bin.length - (bin.takeWhile (· = 0)).length := List.length_drop
  have hBytes : ∀ d ∈ (bin.drop (bin.takeWhile (· = 0)).length).map BitVec.toNat, d < 256 :=
    fun d hd => toNat_lt_of_mem hd
  obtain ⟨hLength, hDigits, hValue, -⟩ := holds_foldl (by decide : 1 < 58) (by decide) hBytes
    (by rw [List.length_map, hRest]; exact pow_bytes_pred_le _)
    (by rw [List.length_map, hRest]; exact pow_bytes_le _)
  unfold b58enc
  simp only [Nat.add_sub_cancel]
  generalize ((bin.drop (bin.takeWhile (· = 0)).length).map BitVec.toNat).foldl
    (convertStep 58 256 _) _ = state at hLength hDigits hValue ⊢
  obtain ⟨buf, high⟩ := state
  have hTail : buf.drop (buf.takeWhile (· = 0)).length =
      (Nat.digits 58 (bigEndian bin)).reverse := by
    rw [drop_length_takeWhile, dropWhile_eq_digits (by decide) hDigits, hValue, hDrop]
    exact congrArg (fun n => (Nat.digits 58 n).reverse) (bigEndian_dropWhile bin)
  have hCount := congrArg List.length hTail
  have hTextLength : (base58Text bin).length = (bin.takeWhile (· = 0)).length +
      ((bin.length - (bin.takeWhile (· = 0)).length) * 138 / 100 + 1) -
        (buf.takeWhile (· = 0)).length := by
    rw [base58Text, List.length_append, List.length_replicate, List.length_map, ← hCount,
      List.length_drop, hLength]
    have hFront : (buf.takeWhile (· = 0)).length ≤ buf.length :=
      (List.takeWhile_sublist _).length_le
    dsimp only at hLength
    omega
  dsimp only
  rw [← hTextLength, hTail, ← List.append_assoc]
  rfl

example : b58enc 69 [0, 0, 255] = ⟨true, 5, (CString.ascii "115Q").chars ++ [0]⟩ := by
  decide +kernel

/-! ## Length and letters -/

theorem b58digit_mem : ∀ d < 58, b58digit d ∈ b58digitsOrdered.chars := by
  unfold b58digit
  rw [b58digitsOrdered, CString.ascii_ofList]
  decide +kernel

theorem b58digit_injOn : ∀ d < 58, ∀ e < 58, b58digit d = b58digit e → d = e := by
  unfold b58digit
  rw [b58digitsOrdered, CString.ascii_ofList]
  decide +kernel

theorem mem_base58Text {bin : List Byte} {b : Byte} (h : b ∈ base58Text bin) :
    b ∈ b58digitsOrdered.chars := by
  obtain hOne | hDigit := List.mem_append.mp h
  · rw [List.eq_of_mem_replicate hOne]
    exact b58digit_mem 0 (by decide)
  · obtain ⟨d, hd, rfl⟩ := List.mem_map.mp hDigit
    exact b58digit_mem d (Nat.digits_lt_base (by decide) (List.mem_reverse.mp hd))

def base58 (bin : List Byte) : CString where
  chars := base58Text bin
  noNul h := b58digitsOrdered.noNul (mem_base58Text h)

theorem length_base58Text (bin : List Byte) : (base58Text bin).length =
    (bin.takeWhile (· = 0)).length + (Nat.digits 58 (bigEndian bin)).length := by
  rw [base58Text, List.length_append, List.length_replicate, List.length_map, List.length_reverse]

theorem length_takeWhile_add (bin : List Byte) :
    (bin.takeWhile (· = 0)).length + (bin.dropWhile (· = 0)).length = bin.length := by
  rw [← List.length_append, List.takeWhile_append_dropWhile]

theorem le_length_base58Text (bin : List Byte) : bin.length ≤ (base58Text bin).length := by
  rw [length_base58Text, ← length_takeWhile_add bin, ← bigEndian_dropWhile]
  apply Nat.add_le_add_left
  cases hRest : bin.dropWhile (· = 0) with
  | nil => exact Nat.zero_le _
  | cons b rest =>
    have hHead : b ≠ 0 := by
      have hNonempty : bin.dropWhile (· = 0) ≠ [] := by
        rw [hRest]
        exact List.cons_ne_nil b rest
      have hFirst := List.head_dropWhile_not (fun b : Byte => decide (b = 0)) hNonempty
      simp only [hRest, List.head_cons, decide_eq_false_iff_not] at hFirst
      exact hFirst
    have hPositive : 1 ≤ b.toNat :=
      Nat.pos_of_ne_zero fun hZero => hHead (BitVec.eq_of_toNat_eq hZero)
    have hValue : 256 ^ (rest.map BitVec.toNat).length * b.toNat ≤ bigEndian (b :: rest) :=
      le_value_cons b.toNat (rest.map BitVec.toNat)
    rw [List.length_map] at hValue
    refine (Nat.lt_digits_length_iff (by decide) _).mpr ?_
    calc
      58 ^ rest.length ≤ 256 ^ rest.length := Nat.pow_le_pow_left (by decide) _
      _ ≤ 256 ^ rest.length * b.toNat := Nat.le_mul_of_pos_right _ hPositive
      _ ≤ bigEndian (b :: rest) := hValue

theorem bigEndian_lt (bin : List Byte) : bigEndian bin < 256 ^ bin.length := by
  have hValue := value_lt (by decide : 1 < 256) fun d hd => @toNat_lt_of_mem bin d hd
  rwa [List.length_map] at hValue

theorem length_base58Text_le (d : Digest) : (base58Text d.bytes).length ≤ 66 := by
  have hCount := length_takeWhile_add d.bytes
  have hValue := bigEndian_lt (d.bytes.dropWhile (· = 0))
  rw [length_base58Text, ← bigEndian_dropWhile]
  rw [d.length_bytes] at hCount
  generalize (d.bytes.dropWhile (· = 0)).length = k at hCount hValue
  obtain hShort | hLong := Nat.lt_or_ge k 48
  · have hDigits := (Nat.digits_length_le_iff (by decide) _).mpr
      (hValue.trans_le (pow_bytes_le k))
    omega
  · obtain rfl : k = 48 := by omega
    have hRoom : 256 ^ 48 ≤ 58 ^ 66 := by norm_num
    have hDigits := (Nat.digits_length_le_iff (by decide) _).mpr (hValue.trans_le hRoom)
    omega

/-! ## One text for each digest -/

theorem base58Text_eq_map (bin : List Byte) :
    base58Text bin = (List.replicate (bin.takeWhile (· = 0)).length 0 ++
      (Nat.digits 58 (bigEndian bin)).reverse).map b58digit := by
  rw [List.map_append, List.map_replicate]
  rfl

theorem map_b58digit_inj {ds es : List Nat} (hds : ∀ d ∈ ds, d < 58) (hes : ∀ e ∈ es, e < 58)
    (h : ds.map b58digit = es.map b58digit) : ds = es := by
  induction ds generalizing es with
  | nil =>
    cases es with
    | nil => rfl
    | cons e es => cases h
  | cons d ds ih =>
    cases es with
    | nil => cases h
    | cons e es =>
      obtain ⟨hHead, hTail⟩ := List.cons.inj h
      rw [b58digit_injOn d (hds d List.mem_cons_self) e (hes e List.mem_cons_self) hHead,
        ih (fun d hd => hds d (List.mem_cons_of_mem _ hd))
          (fun e he => hes e (List.mem_cons_of_mem _ he)) hTail]

theorem base58_digits_lt (bin : List Byte) : ∀ d ∈ List.replicate (bin.takeWhile (· = 0)).length 0 ++
    (Nat.digits 58 (bigEndian bin)).reverse, d < 58 := by
  intro d hd
  obtain hZero | hDigit := List.mem_append.mp hd
  · rw [List.eq_of_mem_replicate hZero]
    decide
  · exact Nat.digits_lt_base (by decide) (List.mem_reverse.mp hDigit)

theorem bigEndian_eq_of_text {bin bin' : List Byte} (h : base58Text bin = base58Text bin') :
    bigEndian bin = bigEndian bin' := by
  have hValue : ∀ n m, value 58 (List.replicate n 0 ++ (Nat.digits 58 m).reverse) = m := by
    intro n m
    rw [value_append, value_replicate, Nat.mul_zero, Nat.zero_add, value, List.reverse_reverse,
      Nat.ofDigits_digits]
  rw [base58Text_eq_map, base58Text_eq_map] at h
  have hDigits := map_b58digit_inj (base58_digits_lt bin) (base58_digits_lt bin') h
  have hSame := congrArg (value 58) hDigits
  rwa [hValue, hValue] at hSame

theorem bigEndian_injective {d d' : Digest} (h : bigEndian d.bytes = bigEndian d'.bytes) :
    d = d' := by
  obtain ⟨bytes, hLength⟩ := d
  obtain ⟨bytes', hLength'⟩ := d'
  have hSame := Nat.ofDigits_inj_of_len_eq (by decide : 1 < 256)
    (by simp only [List.length_reverse, List.length_map, hLength, hLength'])
    (fun b hb => toNat_lt_of_mem (List.mem_reverse.mp hb))
    (fun b hb => toNat_lt_of_mem (List.mem_reverse.mp hb)) h
  have hBytes : bytes = bytes' :=
    List.map_injective_iff.mpr (fun _ _ => BitVec.eq_of_toNat_eq) (List.reverse_injective hSame)
  subst hBytes
  rfl

theorem base58_injective {d d' : Digest} (h : base58 d.bytes = base58 d'.bytes) : d = d' :=
  bigEndian_injective (bigEndian_eq_of_text (congrArg CString.chars h))

/-! ## The address in its field -/

theorem b58enc_digest (d : Digest) :
    b58enc 69 d.bytes = ⟨true, (base58 d.bytes).length + 1, (base58 d.bytes).chars ++ [0]⟩ := by
  have hLength := length_base58Text_le d
  rw [b58enc_eq, if_neg (by omega)]
  rfl

theorem exists_addressField (d : Digest) :
    ∃ field, addressField d = some field ∧ field.string 0 = some (base58 d.bytes) := by
  have hLength : (base58 d.bytes).length ≤ 66 := length_base58Text_le d
  have hWritten : (b58enc 69 d.bytes).written = (base58 d.bytes).chars ++ [0] := by
    rw [b58enc_digest]
  have hCount : ((base58 d.bytes).chars ++ [0]).length = (base58 d.bytes).length + 1 :=
    List.length_append
  have hFits : 0 + (b58enc 69 d.bytes).written.length ≤ 72 := by
    rw [hWritten, hCount]
    omega
  let first := (Region.zeros 72).write 0 (b58enc 69 d.bytes).written hFits
  have hFirst : first.string 0 = some (base58 d.bytes) := by
    rw [Region.string, Region.drop_write_self, hWritten, List.append_assoc]
    exact scan_terminated _ _
  have hStore : first.store 69 0 = some (first.write 69 [0] (by decide)) := dif_pos (by decide)
  refine ⟨_, (dif_pos hFits).trans hStore, ?_⟩
  exact Region.string_of_take_eq hFirst (by omega : 0 + (base58 d.bytes).length < 69)
    (Region.take_write (Nat.le_refl 69))

theorem insertedAddress_eq (d : Digest) : insertedAddress d = some (base58 d.bytes) := by
  have hLength : (base58 d.bytes).length ≤ 66 := length_base58Text_le d
  obtain ⟨field, hField, hText⟩ := exists_addressField d
  simp only [insertedAddress, hField, hText, Option.bind_eq_bind, Option.bind_some]
  rw [CString.take_of_length_le (by omega)]
  rfl

/-! ## sign_transaction -/

def rejections : List String :=
  ["ERROR: Invalid sender address. Too short.\n", "ERROR: Invalid receiver address. Too long.\n"]

theorem oqsFailed_disjoint {name : String} (hName : "ERROR: " ++ name ++ " failed!\n" ∉ rejections)
    (rc : Int) : List.Disjoint (oqsFailed name rc) rejections := by
  intro text hText hRejection
  obtain rfl | rfl : text = "ERROR: " ++ name ++ " failed!\n" ∨
      text = "ERROR: OQS function failed with error code " ++ toString rc ++ ".\n" := by
    simpa [oqsFailed] using hText
  · exact hName hRejection
  · have hLetter : ∀ text ∈ rejections, text.toList[7]? = some 'I' := by decide +kernel
    have hOther := hLetter _ hRejection
    rw [String.append_assoc, String.toList_append, List.getElem?_append_left (by decide +kernel)]
      at hOther
    exact absurd hOther (by decide +kernel)

theorem not_rejected {sha3 : Hash} {scheme : Scheme} {random : List Byte}
    {sender receiver : CString} {amount : LongDouble} {privateKey : PrivateKey}
    {publicKey : PublicKey} {signature : SignatureField} {signing : Signing}
    (hSender : 0 < sender.length ∧ sender.length ≤ 69) (hReceiver : receiver.length ≤ 69)
    (h : signTransaction sha3 scheme random sender receiver amount privateKey publicKey signature =
      some signing) : List.Disjoint signing.printed rejections := by
  have hSenderChecks : ¬(sender.length = 0 ∨ sender.length > 69) := by omega
  have hReceiverChecks : ¬(receiver.length > 69 ∨ receiver.length > 69) := by omega
  rw [signTransaction, if_neg hSenderChecks, if_neg hReceiverChecks] at h
  obtain ⟨privateText, -, h⟩ := Option.bind_eq_some_iff.mp h
  split at h
  · obtain rfl := Option.some.inj h
    exact List.singleton_disjoint.mpr (by simp [rejections])
  obtain ⟨publicText, -, h⟩ := Option.bind_eq_some_iff.mp h
  split at h
  · obtain rfl := Option.some.inj h
    exact List.singleton_disjoint.mpr (by simp [rejections])
  dsimp only at h
  split at h
  · obtain rfl := Option.some.inj h
    exact oqsFailed_disjoint (by simp [rejections]) _
  split at h
  · obtain rfl := Option.some.inj h
    exact oqsFailed_disjoint (by simp [rejections]) _
  obtain ⟨signed, -, h⟩ := Option.bind_eq_some_iff.mp h
  obtain rfl := Option.some.inj h
  exact List.singleton_disjoint.mpr (by simp [rejections])

/-- An address goes whole into its field, into the row and through the checks of sign_transaction,
and no two digests have one address. -/
theorem generated_addresses :
    (∀ d : Digest, ∃ text : CString,
      b58enc 69 d.bytes = ⟨true, text.length + 1, text.chars ++ [0]⟩ ∧
      48 ≤ text.length ∧ text.length ≤ 66 ∧ (∀ b ∈ text.chars, b ∈ b58digitsOrdered.chars) ∧
      (∃ field, addressField d = some field ∧ field.string 0 = some text) ∧
      insertedAddress d = some text) ∧
    (∀ (d d' : Digest) (text text' : CString) (sha3 : Hash) (scheme : Scheme)
      (random : List Byte) (amount : LongDouble) (privateKey : PrivateKey) (publicKey : PublicKey)
      (signature : SignatureField) (signing : Signing), insertedAddress d = some text →
      insertedAddress d' = some text' → signTransaction sha3 scheme random text text' amount
        privateKey publicKey signature = some signing → ∀ line ∈ signing.printed,
          line ≠ "ERROR: Invalid sender address. Too short.\n" ∧
          line ≠ "ERROR: Invalid receiver address. Too long.\n") ∧
    ∀ d d' : Digest, insertedAddress d = insertedAddress d' → d = d' := by
  have hAtLeast : ∀ d : Digest, 48 ≤ (base58 d.bytes).length := by
    intro d
    have hLength := le_length_base58Text d.bytes
    rwa [d.length_bytes] at hLength
  refine ⟨?_, ?_, ?_⟩
  · intro d
    exact ⟨base58 d.bytes, b58enc_digest d, hAtLeast d, length_base58Text_le d,
      fun b hb => mem_base58Text hb, exists_addressField d, insertedAddress_eq d⟩
  · intro d d' text text' sha3 scheme random amount privateKey publicKey signature signing
      hText hText' hSigning line hLine
    obtain rfl := Option.some.inj ((insertedAddress_eq d).symm.trans hText)
    obtain rfl := Option.some.inj ((insertedAddress_eq d').symm.trans hText')
    have hLower := hAtLeast d
    have hUpper : (base58 d.bytes).length ≤ 66 := length_base58Text_le d
    have hUpper' : (base58 d'.bytes).length ≤ 66 := length_base58Text_le d'
    have hDisjoint := not_rejected ⟨by omega, by omega⟩ (by omega) hSigning hLine
    constructor <;> rintro rfl <;> exact hDisjoint (by simp [rejections])
  · intro d d' h
    rw [insertedAddress_eq, insertedAddress_eq] at h
    exact base58_injective (Option.some.inj h)

end Manhattan.Chain
