import Manhattan.Chain.CreateTransaction
import Manhattan.Chain.HexText

/-! # What a transaction id depends on

`get_txid` hashes the bytes of the struct as they lie in memory: its strings with what follows
their terminators, the padding between its fields, and the txid that it is about to write.
-/

namespace Manhattan.Chain

open Library.CStrings Library.Conversions

/-! ## The struct in memory -/

def memory {w : Nat} (size : Nat) (v : BitVec w) : List Byte :=
  (List.range size).map fun i => v.extractLsb' (8 * i) 8

/-- The sign and the biased exponent of the x87 format -/
def signAndExponent (negative : Bool) (exponent : Nat) : BitVec 16 :=
  BitVec.ofNat 16 (if negative then 32768 + exponent else exponent)

/-- The ten bytes of a value; a denormal has the exponent 0. -/
def valueBytes : LongDouble → List Byte
  | .finite negative significand exponent =>
    memory 8 significand ++ memory 2 (signAndExponent negative
      (if exponent.val = 0 ∧ significand < 2 ^ 63 then 0 else exponent.val + 1))
  | .infinite negative => memory 8 (2 ^ 63 : BitVec 64) ++ memory 2 (signAndExponent negative 32767)
  | .nan negative => memory 8 (3 * 2 ^ 62 : BitVec 64) ++ memory 2 (signAndExponent negative 32767)

/-- The padding bytes of `struct transaction`, but for those in front of `confirmed`. -/
structure Fill where
  amount : Region 6
  minersFee : Region 6
  moonshotFee : Region 6
  dataType : Region 4

def NewTransaction.parts (fill : Fill) (t : NewTransaction) : List (List Byte) :=
  [t.sender.bytes, t.recipient.bytes, valueBytes t.amount, fill.amount.bytes,
    valueBytes t.minersFee, fill.minersFee.bytes, valueBytes t.moonshotFee, fill.moonshotFee.bytes,
    t.data.bytes, memory 4 t.dataType, fill.dataType.bytes, memory 8 t.timestamp,
    t.signature.bytes, t.padding.bytes, memory 4 t.confirmed, t.txid.bytes]

/-- The `sizeof(struct transaction)` bytes that are hashed. -/
def structImage (fill : Fill) (t : NewTransaction) : List Byte := (t.parts fill).flatten

theorem length_valueBytes (x : LongDouble) : (valueBytes x).length = 10 := by
  cases x <;> simp [valueBytes, memory]

theorem lengths_parts (fill : Fill) (t : NewTransaction) : (t.parts fill).map List.length =
    [72, 72, 10, 6, 10, 6, 10, 6, 1024, 4, 4, 8, 4841, 3, 4, 96] := by
  simp [NewTransaction.parts, Region.length_bytes, length_valueBytes, memory]

theorem length_structImage (fill : Fill) (t : NewTransaction) :
    (structImage fill t).length = 6176 := by
  rw [structImage, List.length_flatten, lengths_parts]
  decide

def NewTransaction.stamped (t : NewTransaction) (sha3 : Hash) (fill : Fill) : NewTransaction :=
  { t with txid := ⟨(getTxid sha3 (structImage fill) t).chars, by
      simp [getTxid, List.length_flatMap, length_hexByte, Digest.length_bytes]⟩ }

/-! ## Agreement -/

/-- The strings and the values are the same. -/
structure NewTransaction.Agrees (t t' : NewTransaction) : Prop where
  sender : ∃ text, t.sender.string 0 = some text ∧ t'.sender.string 0 = some text
  recipient : ∃ text, t.recipient.string 0 = some text ∧ t'.recipient.string 0 = some text
  amount : t.amount = t'.amount
  minersFee : t.minersFee = t'.minersFee
  moonshotFee : t.moonshotFee = t'.moonshotFee
  data : ∃ text, t.data.string 0 = some text ∧ t'.data.string 0 = some text
  dataType : t.dataType = t'.dataType
  timestamp : t.timestamp = t'.timestamp
  signature : ∃ text, t.signatureText = some text ∧ t'.signatureText = some text
  confirmed : t.confirmed = t'.confirmed

def tail {size : Nat} (r : Region size) : List Byte := r.bytes.dropWhile (· ≠ 0)

/-- The bytes that are neither in a string nor in a value. -/
def NewTransaction.rest (fill : Fill) (t : NewTransaction) : List (List Byte) :=
  [tail t.sender, tail t.recipient, fill.amount.bytes, fill.minersFee.bytes,
    fill.moonshotFee.bytes, tail t.data, fill.dataType.bytes, tail t.signature, t.padding.bytes,
    t.txid.bytes]

def Collides (hash : Hash) (data data' : List Byte) : Prop := data ≠ data' ∧ hash data = hash data'

theorem takeWhile_of_scan {bytes more : List Byte} {s : CString} (h : scan (bytes ++ more) = some s) :
    bytes.takeWhile (· ≠ 0) = s.chars.take bytes.length := by
  induction bytes generalizing s with
  | nil => rfl
  | cons b bytes ih =>
    rw [List.cons_append, scan] at h
    split at h
    · rename_i hb
      obtain rfl := Option.some.inj h
      simp [hb, CString.empty]
    · rename_i hb
      obtain ⟨s', hRest, rfl⟩ := Option.map_eq_some_iff.mp h
      rw [List.takeWhile_cons_of_pos (by simpa using hb), ih hRest]
      rfl

theorem bytes_eq_iff_tail {size : Nat} {r r' : Region size} {more more' : List Byte} {s : CString}
    (h : scan (r.bytes ++ more) = some s) (h' : scan (r'.bytes ++ more') = some s) :
    r.bytes = r'.bytes ↔ tail r = tail r' := by
  have hHead := takeWhile_of_scan h
  have hHead' := takeWhile_of_scan h'
  rw [r.length_bytes] at hHead
  rw [r'.length_bytes] at hHead'
  constructor
  · intro hBytes
    rw [tail, tail, hBytes]
  · intro hTail
    calc r.bytes = r.bytes.takeWhile (· ≠ 0) ++ tail r := List.takeWhile_append_dropWhile.symm
      _ = r'.bytes.takeWhile (· ≠ 0) ++ tail r' := by rw [hHead, hHead', hTail]
      _ = r'.bytes := List.takeWhile_append_dropWhile

theorem bytes_eq_iff_of_string {size : Nat} {r r' : Region size}
    (h : ∃ text, r.string 0 = some text ∧ r'.string 0 = some text) :
    r.bytes = r'.bytes ↔ tail r = tail r' := by
  obtain ⟨text, hText, hText'⟩ := h
  exact bytes_eq_iff_tail (scan_append hText []) (scan_append hText' [])

section

variable {t t' : NewTransaction} {fill fill' : Fill}

theorem structImage_eq_iff_parts :
    structImage fill t = structImage fill' t' ↔ t.parts fill = t'.parts fill' := by
  rw [List.eq_iff_flatten_eq, lengths_parts, lengths_parts]
  exact (and_iff_left rfl).symm

theorem structImage_eq_iff (h : t.Agrees t') :
    structImage fill t = structImage fill' t' ↔ t.rest fill = t'.rest fill' := by
  obtain ⟨text, hSignature, hSignature'⟩ := h.signature
  have hBytes : t.signature.bytes = t'.signature.bytes ↔ tail t.signature = tail t'.signature :=
    bytes_eq_iff_tail hSignature hSignature'
  rw [structImage_eq_iff_parts]
  simp [NewTransaction.parts, NewTransaction.rest, bytes_eq_iff_of_string h.sender,
    bytes_eq_iff_of_string h.recipient, bytes_eq_iff_of_string h.data, hBytes, h.amount,
    h.minersFee, h.moonshotFee, h.dataType, h.timestamp, h.confirmed]

theorem structImage_eq_iff_txid (h : t = { t' with txid := t.txid }) :
    structImage fill t = structImage fill t' ↔ t.txid = t'.txid := by
  rw [structImage_eq_iff_parts, h]
  constructor
  · intro hParts
    have hTxid : t.txid.bytes = t'.txid.bytes := by simpa [NewTransaction.parts] using hParts
    exact Region.mk.injEq .. ▸ hTxid
  · intro hTxid
    rw [hTxid]

theorem stamped_eq_iff {sha3 : Hash} :
    (t.stamped sha3 fill).txid = (t'.stamped sha3 fill').txid ↔
      structImage fill t = structImage fill' t' ∨
        Collides sha3 (structImage fill t) (structImage fill' t') := by
  have hDigits : (t.stamped sha3 fill).txid = (t'.stamped sha3 fill').txid ↔
      sha3 (structImage fill t) = sha3 (structImage fill' t') := by
    rw [← hexDigits_injective.eq_iff]
    exact Region.mk.injEq .. ▸ Iff.rfl
  rw [hDigits, Collides]
  constructor
  · intro hHash
    rw [and_iff_left hHash]
    exact em _
  · rintro (hImage | ⟨_, hHash⟩)
    · rw [hImage]
    · exact hHash

end

/-- Two transactions that agree get one txid if and only if the bytes that do not count are the
same as well, or the hash collides; a second call changes the txid unless the first has found
it there, or the hash collides. -/
theorem txid_determined_iff (sha3 : Hash) (fill fill' : Fill) (t t' : NewTransaction)
    (h : t.Agrees t') :
    ((t.stamped sha3 fill).txid = (t'.stamped sha3 fill').txid ↔
      t.rest fill = t'.rest fill' ∨
        Collides sha3 (structImage fill t) (structImage fill' t')) ∧
    (((t.stamped sha3 fill).stamped sha3 fill).txid = (t.stamped sha3 fill).txid ↔
      (t.stamped sha3 fill).txid = t.txid ∨
        Collides sha3 (structImage fill (t.stamped sha3 fill)) (structImage fill t)) := by
  constructor
  · rw [stamped_eq_iff, structImage_eq_iff h]
  · rw [stamped_eq_iff, structImage_eq_iff_txid rfl]

/-! ## An old txid -/

def lastBytes : Hash := fun data =>
  ⟨(data.reverse ++ List.replicate 48 0).take 48, by simp⟩

def noFill : Fill := ⟨.zeros 6, .zeros 6, .zeros 6, .zeros 4⟩

def payment (txid : Region 96) : NewTransaction where
  sender := .zeros 72
  recipient := .zeros 72
  amount := .finite false 0 0
  minersFee := .finite false 0 0
  moonshotFee := .finite false 0 0
  data := .zeros 1024
  dataType := 1
  timestamp := 1000
  signature := .zeros 4841
  padding := .zeros 3
  confirmed := 0
  txid := txid

def ones : Region 96 := ⟨List.replicate 96 1, List.length_replicate⟩

theorem payment_agrees (txid txid' : Region 96) : (payment txid).Agrees (payment txid') := by
  have hEmpty : ∀ n, (Region.zeros (n + 1)).string 0 = some .empty := fun _ => rfl
  exact ⟨⟨_, hEmpty _, hEmpty _⟩, ⟨_, hEmpty _, hEmpty _⟩, rfl, rfl, rfl, ⟨_, hEmpty _, hEmpty _⟩,
    rfl, rfl, ⟨.empty, rfl, rfl⟩, rfl⟩

theorem txid_determined_iff_payment :
    ((payment (.zeros 96)).stamped lastBytes noFill).txid =
        ((payment ones).stamped lastBytes noFill).txid ↔
      (payment (.zeros 96)).rest noFill = (payment ones).rest noFill ∨
        Collides lastBytes (structImage noFill (payment (.zeros 96)))
          (structImage noFill (payment ones)) :=
  (txid_determined_iff lastBytes noFill noFill _ _ (payment_agrees (.zeros 96) ones)).1

/-- What the txid was before shows in the one that is computed, and so does the one that was
computed when it is computed again. -/
theorem txid_not_determined : (payment (.zeros 96)).Agrees (payment ones) ∧
    ((payment (.zeros 96)).stamped lastBytes noFill).txid ≠
      ((payment ones).stamped lastBytes noFill).txid ∧
    (((payment (.zeros 96)).stamped lastBytes noFill).stamped lastBytes noFill).txid ≠
      ((payment (.zeros 96)).stamped lastBytes noFill).txid := by
  refine ⟨payment_agrees (.zeros 96) ones, ?_, ?_⟩ <;> decide +kernel

end Manhattan.Chain
