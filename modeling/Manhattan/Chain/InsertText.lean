import Manhattan.Chain.Admission
import Manhattan.Library.FixedPoint
import Manhattan.Library.SqlText

/-! # What the INSERT of a transaction says

The texts of a transaction are printed between single quotes, and a single quote in one of
them is not doubled. The statement stores the transaction if and only if there is none.
-/

namespace Manhattan.Chain

open Library Library.CStrings Library.Conversions Library.FixedPoint Library.SqlText
  Library.StandardInput

/-! ## Stored as it is -/

def tableName : List Byte := (CString.ascii "transactions").chars

def columnNames : List String :=
  ["txid", "sender", "recipient", "amount", "miners_fee", "moonshot_fee", "data", "data_type",
    "timestamp", "signature", "confirmed"]

def nameTokens : List String → List Token
  | [] => []
  | [name] => [keyword name, .symbol 41]
  | name :: rest => keyword name :: .symbol 44 :: nameTokens rest

def headTokens : List Token :=
  keyword "INSERT" :: keyword "INTO" :: keyword "transactions" :: .symbol 40 ::
    (nameTokens columnNames ++ [keyword "VALUES", .symbol 40])

/-- The values that are printed for a transaction with these texts. -/
def NewTransaction.columns (t : NewTransaction) (txid sender recipient data signature : CString) :
    List Column :=
  [.quoted txid.chars, .quoted sender.chars, .quoted recipient.chars,
    .plain (t.amount.print 6).chars, .plain (t.minersFee.print 6).chars,
    .plain (t.moonshotFee.print 6).chars, .quoted data.chars,
    .quoted (decimal t.dataType.toInt).chars, .plain (decimal t.timestamp.toInt).chars,
    .quoted signature.chars, .quoted (decimal t.confirmed.toInt).chars]

/-- The text is one INSERT of literals, and those of the texts are what they are in the struct. -/
def NewTransaction.StoredBy (t : NewTransaction) (txid sql : CString) : Prop :=
  ∃ sender ∈ t.sender.string 0, ∃ recipient ∈ t.recipient.string 0,
    ∃ data ∈ t.data.string 0, ∃ signature ∈ t.signatureText, ∃ literals,
      statement sql.chars = some ⟨tableName,
        columnNames.map fun name => (CString.ascii name).chars, literals⟩ ∧
      literals.map Literal.text? =
        (t.columns txid sender recipient data signature).map Column.text?

def Finite : LongDouble → Prop
  | .finite _ _ _ => True
  | .infinite _ | .nan _ => False

structure NewTransaction.Plain (t : NewTransaction) : Prop where
  sender : ∀ text ∈ t.sender.string 0, quoteMark ∉ text.chars
  recipient : ∀ text ∈ t.recipient.string 0, quoteMark ∉ text.chars
  data : ∀ text ∈ t.data.string 0, quoteMark ∉ text.chars
  signature : ∀ text ∈ t.signatureText, quoteMark ∉ text.chars
  amount : Finite t.amount
  minersFee : Finite t.minersFee
  moonshotFee : Finite t.moonshotFee

/-! ## Numbers -/

theorem isDigit_of_mem_decimalNat {n : Nat} {b : Byte} (h : b ∈ (decimalNat n).chars) :
    isDigit b := by
  have hDigit : ∀ d < 10, isDigit (decimalDigit d) := by decide
  unfold decimalNat at h
  simp only at h
  split at h
  · rw [List.mem_singleton.mp h]
    decide
  · obtain ⟨d, hd, rfl⟩ := List.mem_map.mp h
    exact hDigit d (Nat.digits_lt_base (by decide) (List.mem_reverse.mp hd))

theorem isDigit_of_mem_decimals {width n : Nat} {b : Byte} (h : b ∈ (decimals width n).chars) :
    isDigit b := by
  have hDigit : ∀ d < 10, isDigit (decimalDigit d) := by decide
  induction width generalizing n with
  | zero => cases h
  | succ width ih =>
    rcases List.mem_append.mp h with hHead | hLast
    · exact ih hHead
    · rw [List.mem_singleton.mp hLast]
      exact hDigit _ (Nat.mod_lt _ (by decide))

theorem exists_head_decimalNat (n : Nat) :
    ∃ c digits, (decimalNat n).chars = c :: digits ∧ isDigit c ∧
      ∀ b ∈ digits, isDigit b := by
  obtain ⟨c, digits, hChars⟩ := List.exists_cons_of_length_pos (length_decimalNat_pos n)
  have hDigits : ∀ b ∈ c :: digits, isDigit b := fun b hb =>
    isDigit_of_mem_decimalNat (hChars ▸ hb)
  rw [List.forall_mem_cons] at hDigits
  exact ⟨c, digits, hChars, hDigits⟩

theorem signed_append (negative : Bool) (text : CString) :
    (sign negative ++ text).chars = signed negative text.chars := by
  cases negative <;> rfl

theorem isNumber_decimal (i : Int) : IsNumber (decimal i).chars := by
  obtain ⟨c, digits, hChars, hc, hDigits⟩ := exists_head_decimalNat i.natAbs
  have hSign : decimal i = sign (decide (i < 0)) ++ decimalNat i.natAbs := by
    unfold decimal
    split
    · rw [decide_eq_true ‹_›]
      rfl
    · rw [decide_eq_false ‹_›]
      rfl
  refine ⟨decide (i < 0), c, digits, ?_, hc, fun b hb => .inl (hDigits b hb)⟩
  rw [hSign, signed_append, hChars]

theorem isNumber_print {x : LongDouble} (h : Finite x) : IsNumber (x.print 6).chars := by
  rcases x with ⟨negative, significand, exponent⟩ | _ | _
  · generalize hn : roundHalfEven (significand.toNat * 2 ^ exponent.val * 10 ^ 6) (2 ^ 16445) = n
    obtain ⟨c, digits, hChars, hc, hDigits⟩ := exists_head_decimalNat (n / 10 ^ 6)
    refine ⟨negative, c, digits ++ 46 :: (decimals 6 n).chars, ?_, hc, ?_⟩
    · rw [LongDouble.print, hn, signed_append, chars_fixedPoint, hChars, List.cons_append]
    · intro b hb
      rcases List.mem_append.mp hb with hWhole | hRest
      · exact .inl (hDigits b hWhole)
      · rcases List.mem_cons.mp hRest with rfl | hDecimals
        · exact .inr rfl
        · exact .inl (isDigit_of_mem_decimals hDecimals)
  · cases h
  · cases h

theorem isWord_print {x : LongDouble} (h : ¬Finite x) : IsWord (x.print 6).chars := by
  rcases x with _ | negative | negative
  · exact absurd trivial h
  · refine ⟨negative, 105, [110, 102], ?_, by decide, by decide⟩
    rw [LongDouble.print, signed_append]
  · refine ⟨negative, 110, [97, 110], ?_, by decide, by decide⟩
    rw [LongDouble.print, signed_append]

theorem not_isNumber_of_isWord {text : List Byte} (h : IsWord text) : ¬IsNumber text := by
  rintro ⟨negative, c, digits, hText, hc, -⟩
  obtain ⟨negative', d, letters, rfl, hd, -⟩ := h
  have hOther : ∀ b, isDigit b → ¬isLetter b := by decide
  have hDigit : ¬isDigit 45 := by decide
  have hLetter : ¬isLetter 45 := by decide
  cases negative <;> cases negative' <;> simp only [signed] at hText
  · exact hOther c hc ((List.cons.inj hText).1 ▸ hd)
  · exact hDigit ((List.cons.inj hText).1 ▸ hc)
  · exact hLetter ((List.cons.inj hText).1 ▸ hd)
  · exact hOther c hc ((List.cons.inj (List.cons.inj hText).2).1 ▸ hd)

/-! ## The text that is printed -/

theorem length_lt_of_string {size : Nat} {r : Region size} {s : CString}
    (h : r.string 0 = some s) : s.length < size := by
  obtain ⟨s', hString, hLength⟩ := r.exists_string (Region.mem_zero_of_string h)
  rw [h] at hString
  obtain rfl := Option.some.inj hString
  exact hLength

theorem NewTransaction.length_signatureText (t : NewTransaction) {text : CString}
    (h : t.signatureText = some text) : text.length < 4848 := by
  obtain ⟨rest, hBytes⟩ := exists_of_scan h
  have hLength := congrArg List.length hBytes
  simp only [List.length_append, t.signature.length_bytes, t.padding.length_bytes,
    List.length_map, List.length_range, List.length_cons] at hLength
  change text.chars.length < 4848
  omega

theorem length_getTxid (sha3 : Hash) (image : NewTransaction → List Byte) (t : NewTransaction) :
    (getTxid sha3 image t).length = 96 := by
  rw [CString.length, getTxid, List.length_flatMap]
  simp [length_hexByte, Digest.length_bytes]

theorem length_insertColumns_le : insertColumns.length ≤ 143 := by
  rw [insertColumns, CString.ascii_ofList]
  refine (List.length_filter_le ..).trans ?_
  simp

theorem insertSql_eq {t : NewTransaction} {txid sql : CString} (hTxid : txid.length ≤ 96)
    (h : insertSql t txid = some sql) :
    ∃ sender recipient data signature, t.sender.string 0 = some sender ∧
      t.recipient.string 0 = some recipient ∧ t.data.string 0 = some data ∧
      t.signatureText = some signature ∧ sql.chars = insertColumns.chars ++
        (listed (t.columns txid sender recipient data signature) ++ [59]) := by
  obtain ⟨sender, hSender, h⟩ := Option.bind_eq_some_iff.mp h
  obtain ⟨recipient, hRecipient, h⟩ := Option.bind_eq_some_iff.mp h
  obtain ⟨data, hData, h⟩ := Option.bind_eq_some_iff.mp h
  obtain ⟨signature, hSignature, h⟩ := Option.bind_eq_some_iff.mp h
  refine ⟨sender, recipient, data, signature, hSender, hRecipient, hData, hSignature, ?_⟩
  obtain rfl := Option.some.inj h
  have hSenderFits := length_lt_of_string hSender
  have hRecipientFits := length_lt_of_string hRecipient
  have hDataFits := length_lt_of_string hData
  have hSignatureFits := t.length_signatureText hSignature
  have hAmount := t.amount.length_print_le 6
  have hMiners := t.minersFee.length_print_le 6
  have hMoonshot := t.moonshotFee.length_print_le 6
  have hType := length_decimal32_le t.dataType
  have hConfirmed := length_decimal32_le t.confirmed
  have hTimestamp := length_decimal64_le t.timestamp
  have hQuote : (CString.ascii "'").chars = [39] := by decide
  have hSeparator : separator.chars = [44, 32] := by decide
  have hEnd : (CString.ascii ");").chars = [41, 59] := by decide
  have hColumns := length_insertColumns_le
  simp only [CString.length] at *
  rw [CString.chars_take, List.take_of_length_le]
  · simp [quoted, hQuote, hSeparator, hEnd, NewTransaction.columns, listed, Column.source,
      quoteMark]
  · simp only [quoted, CString.chars_append, hQuote, hSeparator, hEnd, List.length_append,
      List.length_cons, List.length_nil]
    omega

/-! ## The text that is read back -/

theorem read_insertColumns :
    Scanner.read ⟨[], .between⟩ insertColumns.chars = ⟨headTokens, .between⟩ := by
  rw [insertColumns, CString.ascii_ofList]
  decide +kernel

theorem names_nameTokens (name : String) (rest : List String) (all : List Token) :
    names (nameTokens (name :: rest) ++ all) =
      some ((name :: rest).map fun name => name.toList.map fun c => BitVec.ofNat 8 c.toNat, all) := by
  induction rest generalizing name with
  | nil => rfl
  | cons next rest ih =>
    change prepend _ (names (nameTokens (next :: rest) ++ all)) = _
    rw [ih]
    rfl

theorem insert_headTokens (all : List Token) : SqlText.insert (headTokens ++ all) =
    (values all).bind fun result =>
      if result.2 = [] ∨ result.2 = [.symbol 59] then
        some ⟨tableName, columnNames.map fun name => (CString.ascii name).chars, result.1⟩
      else none := by
  have hNames : columnNames.map (fun name => name.toList.map fun c => BitVec.ofNat 8 c.toNat) =
      columnNames.map fun name => (CString.ascii name).chars := by decide
  have hRead : SqlText.insert (headTokens ++ all) =
      (names (nameTokens columnNames ++ (keyword "VALUES" :: .symbol 40 :: all))).bind
        fun result => (insertValues result.2).bind fun literals =>
          some ⟨tableName, result.1, literals⟩ := by
    simp only [headTokens, List.cons_append, List.append_assoc, List.nil_append, SqlText.insert,
      keyword]
    rfl
  have hValues : insertValues (keyword "VALUES" :: .symbol 40 :: all) =
      (values all).bind fun result =>
        if result.2 = [] ∨ result.2 = [.symbol 59] then some result.1 else none := by
    simp [insertValues, keyword]
  rw [hRead, columnNames, names_nameTokens, ← columnNames, hNames]
  change (insertValues (keyword "VALUES" :: .symbol 40 :: all)).bind _ = _
  rw [hValues, Option.bind_assoc]
  refine congrArg (Option.bind (values all)) (funext fun result => ?_)
  split <;> rfl

section

variable {t : NewTransaction} {txid sender recipient data signature : CString}

theorem printed_columns :
    ∀ column ∈ t.columns txid sender recipient data signature, column.Printed := by
  have hPlain : ∀ x : LongDouble, IsNumber (x.print 6).chars ∨ IsWord (x.print 6).chars := fun x =>
    (em (Finite x)).imp isNumber_print isWord_print
  simp [NewTransaction.columns, Column.Printed, hPlain, isNumber_decimal]

theorem reads_columns_iff (hTxid : quoteMark ∉ txid.chars)
    (hSender : t.sender.string 0 = some sender) (hRecipient : t.recipient.string 0 = some recipient)
    (hData : t.data.string 0 = some data) (hSignature : t.signatureText = some signature) :
    (∀ column ∈ t.columns txid sender recipient data signature, column.Reads) ↔ t.Plain := by
  have hPlain : ∀ x : LongDouble, (Column.plain (x.print 6).chars).Reads ↔ Finite x := by
    intro x
    refine ⟨fun hNumber => ?_, isNumber_print⟩
    by_contra h
    exact not_isNumber_of_isWord (isWord_print h) hNumber
  have hQuote : ∀ i : Int, quoteMark ∉ (decimal i).chars := fun i =>
    not_mem_decimal (by decide) (by decide)
  have hDecimal := isNumber_decimal t.timestamp.toInt
  simp only [NewTransaction.columns, List.forall_mem_cons, hPlain]
  simp only [Column.Reads, hQuote, hTxid, not_false_eq_true, hDecimal, true_and]
  constructor
  · rintro ⟨hNoSender, hNoRecipient, hAmount, hMiners, hMoonshot, hNoData, hNoSignature, -⟩
    constructor <;> simpa [hSender, hRecipient, hData, hSignature]
  · intro h
    exact ⟨h.sender _ hSender, h.recipient _ hRecipient, h.amount, h.minersFee, h.moonshotFee,
      h.data _ hData, h.signature _ hSignature, nofun⟩

theorem statement_eq {sql : CString} {columns : List Column}
    (h : sql.chars = insertColumns.chars ++ (listed columns ++ [59])) : statement sql.chars =
      (Scanner.read ⟨headTokens, .between⟩ (listed columns ++ [59])).finish.bind SqlText.insert := by
  rw [statement, tokensOf, h, Scanner.read_append, read_insertColumns]

end

/-- The transaction is stored as it is if and only if no text of it has a single quote and its
amounts are numbers. -/
theorem insert_stores_iff (sha3 : Hash) (image : NewTransaction → List Byte) (t : NewTransaction)
    (sql : CString) (h : insertSql t (getTxid sha3 image t) = some sql) :
    t.StoredBy (getTxid sha3 image t) sql ↔ t.Plain := by
  have hTxid : quoteMark ∉ (getTxid sha3 image t).chars := by
    intro hQuote
    obtain ⟨b, _, hDigit⟩ := List.mem_flatMap.mp hQuote
    exact absurd (mem_hexByte hDigit) (by decide)
  obtain ⟨sender, recipient, data, signature, hSender, hRecipient, hData, hSignature, hSql⟩ :=
    insertSql_eq (length_getTxid sha3 image t).le h
  rw [← reads_columns_iff hTxid hSender hRecipient hData hSignature]
  constructor
  · rintro ⟨sender', hSender', recipient', hRecipient', data', hData', signature', hSignature',
      literals, hStatement, hTexts⟩
    rw [Option.mem_def] at hSender' hRecipient' hData' hSignature'
    obtain rfl := Option.some.inj (hSender'.symm.trans hSender)
    obtain rfl := Option.some.inj (hRecipient'.symm.trans hRecipient)
    obtain rfl := Option.some.inj (hData'.symm.trans hData)
    obtain rfl := Option.some.inj (hSignature'.symm.trans hSignature)
    rw [statement_eq hSql] at hStatement
    obtain ⟨tokens, hTokens, hInsert⟩ := Option.bind_eq_some_iff.mp hStatement
    obtain ⟨all, rfl⟩ := Scanner.prefix_tokens hTokens
    rw [insert_headTokens] at hInsert
    obtain ⟨⟨literals', rest⟩, hValues, hEnd⟩ := Option.bind_eq_some_iff.mp hInsert
    refine Scanner.reads_of_values printed_columns hTokens hValues ?_
    dsimp only at hEnd
    split at hEnd
    · obtain rfl := congrArg Insert.values (Option.some.inj hEnd)
      exact hTexts
    · cases hEnd
  · intro hReads
    obtain ⟨all, hRead, hValues⟩ := Scanner.values_of_reads (by simp [NewTransaction.columns])
      hReads headTokens
    obtain ⟨literals, hLiterals, hTexts⟩ := hValues [.symbol 59]
    refine ⟨sender, hSender, recipient, hRecipient, data, hData, signature, hSignature, literals,
      ?_, hTexts⟩
    have hFinish : (Scanner.read ⟨headTokens, .between⟩ (listed (t.columns (getTxid sha3 image t)
        sender recipient data signature) ++ [59])).finish =
          some (headTokens ++ (all ++ [.symbol 59])) := by
      rw [Scanner.read_append, hRead, ← List.append_assoc]
      rfl
    rw [statement_eq hSql, hFinish, Option.bind_some, insert_headTokens, hLiterals]
    simp

/-! ## A quote that is typed -/

def Submission.transaction (s : Submission) : NewTransaction :=
  (s.typed onesPlatform.strtold).getD s.uninit

def Submission.txid (s : Submission) : CString :=
  getTxid onesPlatform.sha3 onesPlatform.image s.transaction

theorem typed_transaction {s : Submission} (h : s.Terminated) :
    s.typed onesPlatform.strtold = some s.transaction ∧ s.transaction.Terminated := by
  obtain ⟨t, hTyped, hTerminated⟩ := exists_typed h onesPlatform.strtold
  rw [Submission.transaction, hTyped, Option.getD_some]
  exact ⟨rfl, hTerminated⟩

theorem terminated_alice : alice.Terminated := by
  constructor <;> exact List.mem_replicate.mpr ⟨by decide, rfl⟩

theorem insert_stores_iff_alice : ∃ sql, insertSql alice.transaction alice.txid = some sql ∧
    (alice.transaction.StoredBy alice.txid sql ↔ alice.transaction.Plain) := by
  obtain ⟨sql, hSql⟩ := exists_insertSql (typed_transaction terminated_alice).2 alice.txid
  exact ⟨sql, hSql, insert_stores_iff onesPlatform.sha3 onesPlatform.image _ sql hSql⟩

/-- The sender ends the list of values, and a comment hides what follows. -/
def mallory : Submission :=
  { alice with
    stdin := (CString.ascii
      "\nm','x',9,0,0,'','1',0,'','0');/*\nbob\n1\n1\n1\nhello\n1\n").chars }

theorem terminated_mallory : mallory.Terminated :=
  ⟨terminated_alice.sender, terminated_alice.recipient, terminated_alice.data,
    terminated_alice.input⟩

theorem sql_of_failed {platform : Platform} {s : Submission} {t : NewTransaction}
    (hTyped : s.typed platform.strtold = some t)
    (hReturned : (do
      let sender ← t.sender.string 0
      let recipient ← t.recipient.string 0
      let walletKeys ← s.walletKeys sender
      let signing ← s.sign platform t sender recipient walletKeys
      return signing.returned) = some (some (-1))) :
    s.sql platform = insertSql t (getTxid platform.sha3 platform.image t) := by
  obtain ⟨sender, hSender, h⟩ := Option.bind_eq_some_iff.mp hReturned
  obtain ⟨recipient, hRecipient, h⟩ := Option.bind_eq_some_iff.mp h
  obtain ⟨walletKeys, hKeys, h⟩ := Option.bind_eq_some_iff.mp h
  obtain ⟨signing, hSign, h⟩ := Option.bind_eq_some_iff.mp h
  have hSignature : signing.signature = t.signature := by
    apply signature_of_failed hSign
    rw [Option.some.inj h]
    nofun
  simp only [Submission.sql, hTyped, hSender, hRecipient, hKeys, hSign, hSignature,
    Option.bind_eq_bind, Option.bind_some]

/-- "ob" and a newline is the recipient; the row is one for "x". -/
theorem insert_injected : ∃ sql, mallory.typed onesPlatform.strtold = some mallory.transaction ∧
    mallory.sql onesPlatform = some sql ∧
    insertSql mallory.transaction mallory.txid = some sql ∧
    ¬mallory.transaction.StoredBy mallory.txid sql := by
  obtain ⟨hTyped, hTerminated⟩ := typed_transaction terminated_mallory
  obtain ⟨sql, hSql⟩ := exists_insertSql hTerminated mallory.txid
  have hSame : mallory.sql onesPlatform = insertSql mallory.transaction mallory.txid := by
    refine sql_of_failed hTyped ?_
    unfold mallory
    rw [CString.ascii_ofList]
    decide +kernel
  have hRead : (do
      let sender ← mallory.transaction.sender.string 0
      let recipient ← mallory.transaction.recipient.string 0
      let data ← mallory.transaction.data.string 0
      let signature ← mallory.transaction.signatureText
      let tokens ← (Scanner.read ⟨headTokens, .between⟩ (listed
        (mallory.transaction.columns mallory.txid sender recipient data signature) ++ [59])).finish
      let insert ← SqlText.insert tokens
      return (recipient, insert.values.map Literal.text?)) =
        some (.ascii "ob\n", [some mallory.txid.chars, some (CString.ascii "m").chars,
          some (CString.ascii "x").chars, none, none, none, some [], some (CString.ascii "1").chars,
          none, some [], some (CString.ascii "0").chars]) := by
    unfold mallory
    repeat rw [CString.ascii_ofList]
    decide +kernel
  have hTxid : mallory.txid.length = 96 := length_getTxid _ _ _
  obtain ⟨sender, recipient, data, signature, hSender, hRecipient, hData, hSignature, hText⟩ :=
    insertSql_eq hTxid.le hSql
  refine ⟨sql, hTyped, hSame.trans hSql, hSql, ?_⟩
  rintro ⟨sender', -, recipient', hRecipient', data', -, signature', -, literals, hStatement,
    hTexts⟩
  obtain rfl := Option.some.inj (hRecipient'.symm.trans hRecipient)
  rw [statement_eq hText] at hStatement
  simp only [hSender, hRecipient, hData, hSignature, Option.bind_eq_bind, Option.bind_some] at hRead
  rw [← Option.bind_assoc, hStatement, Option.bind_some, hTexts] at hRead
  obtain ⟨rfl, hColumns⟩ := Prod.mk.inj (Option.some.inj hRead)
  have hThird : some (some (CString.ascii "ob\n").chars) = some (some (CString.ascii "x").chars) :=
    congrArg (fun texts => texts[2]?) hColumns
  revert hThird
  decide

end Manhattan.Chain
