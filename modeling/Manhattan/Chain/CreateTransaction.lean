import Manhattan.Chain.Transactions
import Manhattan.Library.StandardInput

/-! # create_transaction

The sender, the recipient, the amounts and the data are typed in, the keys of the sender are
looked up in `wallet.db`, and what `sign_transaction` leaves in the struct goes as a row into
the table `transactions` of `transactions.db`. What a call reads from outside is an argument:
the bytes typed, the rows of the wallet, the clock, which calls of SQLite succeed, and the
bytes that the structs start with. Prompts and echoes are left out.
-/

namespace Manhattan.Chain

open Library.CStrings Library.Conversions Library.StandardInput

/-! ## The tables -/

/-- A row of `transactions`, its columns as `sqlite3_get_table` gives them. -/
structure PoolRow where
  txid : CString
  sender : CString
  recipient : CString
  amount : CString
  minersFee : CString
  moonshotFee : CString
  data : CString
  dataType : CString
  timestamp : CString
  signature : CString
  confirmed : CString
  deriving DecidableEq

def PoolRow.columns (row : PoolRow) : List CString :=
  [row.txid, row.sender, row.recipient, row.amount, row.minersFee, row.moonshotFee, row.data,
    row.dataType, row.timestamp, row.signature, row.confirmed]

abbrev Pool := Option (List PoolRow)

def Pool.rows (pool : Pool) : List PoolRow := pool.getD []

/-- A row of `wallet`; nothing stands for NULL. -/
structure WalletRow where
  address : Option CString
  privateKey : Option CString
  publicKey : Option CString

/-! ## The structs -/

structure EncWallet where
  publicKey : PublicKey
  privateKey : PrivateKey

/-- `struct transaction`, with the three bytes between `signature` and `confirmed`. -/
structure NewTransaction where
  sender : Region 72
  recipient : Region 72
  amount : LongDouble
  minersFee : LongDouble
  moonshotFee : LongDouble
  data : Region 1024
  dataType : BitVec 32
  timestamp : BitVec 64
  signature : SignatureField
  padding : Region 3
  confirmed : BitVec 32
  txid : Region 96

/-- A signature without a NUL goes on into what follows it. -/
def NewTransaction.signatureText (t : NewTransaction) : Option CString :=
  scan (t.signature.bytes ++ (t.padding.bytes ++
    (List.range 4).map fun i => t.confirmed.extractLsb' (8 * i) 8))

/-! ## What the function calls -/

/-- SHA3-384, Dilithium2, `strtold`, how a struct lies in memory, and what SQLite makes of a
text: the rows afterwards, and a message if it fails. -/
structure Platform where
  sha3 : Hash
  scheme : Scheme
  strtold : CString → LongDouble
  image : NewTransaction → List Byte
  exec : CString → List PoolRow → List PoolRow × Option String

/-- Which calls of SQLite return SQLITE_OK, in their order. -/
structure Statuses where
  openPool : Bool
  createTable : Bool
  openWallet : Bool
  prepare : Bool
  reopenPool : Bool
  openPoolAgain : Bool

structure Submission where
  stdin : List Byte
  wallet : List WalletRow
  clock : BitVec 64
  random : List Byte
  status : Statuses
  errmsg : String
  uninit : NewTransaction
  uninitInput : Region 128
  uninitKeys : EncWallet

/-! ## Typing -/

def readAmount (strtold : CString → LongDouble) (tmpInput : Region 128) (input : List Byte) :
    Option (LongDouble × Region 128 × List Byte) := do
  let (tmpInput, input) := fgets tmpInput input
  let tmpInput ← cutNewline tmpInput
  let text ← tmpInput.string 0
  return (strtold text, tmpInput, input)

/-- The `getchar()` before the recipient and the one before the data take a byte of what is
typed there, since `fgets` has read the newline already. -/
def Submission.typed (s : Submission) (strtold : CString → LongDouble) :
    Option NewTransaction := do
  let (sender, input) := fgets s.uninit.sender (getchar s.stdin)
  let (recipient, input) := fgets s.uninit.recipient (getchar input)
  let (amount, tmpInput, input) ← readAmount strtold s.uninitInput input
  let (minersFee, tmpInput, input) ← readAmount strtold tmpInput input
  let (moonshotFee, _, input) ← readAmount strtold tmpInput input
  let (data, input) := fgets s.uninit.data (getchar input)
  let dataType := scanfInt input s.uninit.dataType
  -- only the newline of the sender is cut off
  let sender ← cutNewline sender
  return { s.uninit with
    sender := sender
    recipient := recipient
    amount := amount
    minersFee := minersFee
    moonshotFee := moonshotFee
    data := data
    dataType := dataType
    timestamp := s.clock
    confirmed := 0 }

/-! ## The wallet -/

inductive Lookup
  | nullAddress
  | absent
  | found (row : WalletRow)

/-- `while (result == SQLITE_ROW)` -/
def lookUp (sender : CString) : List WalletRow → Lookup
  | [] => .absent
  | row :: rest =>
    match row.address with
    | none => .nullAddress
    | some address => if address = sender then .found row else lookUp sender rest

/-- `snprintf` into a buffer of the size of the field and `strncpy` from there, which fills the
field up. -/
def keyField (length : Nat) (hex : CString) : Region (length + 1) where
  bytes := (hex.take length).chars ++
    List.replicate (length + 1 - (hex.take length).length) 0
  length_bytes := by
    have hTake := CString.length_take_le length hex
    rw [List.length_append, List.length_replicate]
    exact Nat.add_sub_cancel' (Nat.le_succ_of_le hTake)

def WalletRow.keys (row : WalletRow) : Option EncWallet := do
  let privateKeyHex ← row.privateKey
  let publicKeyHex ← row.publicKey
  return {
    publicKey := keyField 2624 publicKeyHex
    privateKey := keyField 5056 privateKeyHex }

/-! ## get_txid -/

/-- The last NUL falls behind the struct. -/
def getTxid (sha3 : Hash) (image : NewTransaction → List Byte) (t : NewTransaction) : CString where
  chars := (sha3 (image t)).bytes.flatMap hexByte
  noNul h := by
    obtain ⟨b, _, hDigit⟩ := List.mem_flatMap.mp h
    exact absurd (mem_hexByte hDigit) (by decide)

/-! ## The INSERT -/

def insertColumns : CString := CString.ascii
  "INSERT INTO transactions (txid, sender, recipient, amount, miners_fee, moonshot_fee, data, data_type, timestamp, signature, confirmed) VALUES ("

def quoted (text : CString) : CString := CString.ascii "'" ++ text ++ CString.ascii "'"

def separator : CString := CString.ascii ", "

/-- `sql` has room for 99998 characters. -/
def insertSql (t : NewTransaction) (txid : CString) : Option CString := do
  let sender ← t.sender.string 0
  let recipient ← t.recipient.string 0
  let data ← t.data.string 0
  let signature ← t.signatureText
  let sql := insertColumns ++ quoted txid ++ separator ++ quoted sender ++ separator ++
    quoted recipient ++ separator ++ t.amount.print 6 ++ separator ++ t.minersFee.print 6 ++ separator ++
    t.moonshotFee.print 6 ++ separator ++ quoted data ++ separator ++
    quoted (decimal t.dataType.toInt) ++ separator ++ decimal t.timestamp.toInt ++ separator ++
    quoted signature ++ separator ++ quoted (decimal t.confirmed.toInt) ++ CString.ascii ");"
  return sql.take 99998

/-! ## create_transaction -/

/-- What is returned, nothing where the function ends without a `return`, what is printed, and
`transactions.db` afterwards. -/
structure Outcome where
  returned : Option Int
  printed : List String
  pool : Pool
  deriving DecidableEq

def cannotOpen (errmsg : String) : String := "Cannot open database: " ++ errmsg ++ "\n"

def sqlError (errmsg : String) : String := "SQL error: " ++ errmsg ++ "\n"

/-- From the call of `sign_transaction` on, whose result is not looked at. -/
def submit (platform : Platform) (s : Submission) (t : NewTransaction) (walletKeys : EncWallet)
    (printed : List String) (rows : List PoolRow) : Option Outcome := do
  let sender ← t.sender.string 0
  let recipient ← t.recipient.string 0
  let signing ← signTransaction platform.sha3 platform.scheme s.random sender recipient t.amount
    walletKeys.privateKey walletKeys.publicKey t.signature
  let printed := printed ++ signing.printed
  let t := { t with signature := signing.signature }
  let txid := getTxid platform.sha3 platform.image t
  if !s.status.reopenPool then
    return ⟨some 1, printed ++ [cannotOpen s.errmsg], some rows⟩
  let sql ← insertSql t txid
  if !s.status.openPoolAgain then
    return ⟨some (-1), printed ++ ["Error opening database: " ++ s.errmsg ++ "\n"], some rows⟩
  let (rows, error) := platform.exec sql rows
  return ⟨none, printed ++ (error.map sqlError).toList, some rows⟩

def createTransaction (platform : Platform) (s : Submission) (pool : Pool) : Option Outcome := do
  if !s.status.openPool then return ⟨some 1, [cannotOpen s.errmsg], pool⟩
  if !s.status.createTable then return ⟨some 1, [sqlError s.errmsg], pool⟩
  let rows := pool.rows
  let t ← s.typed platform.strtold
  if !s.status.openWallet then return ⟨some 1, [cannotOpen s.errmsg], some rows⟩
  if !s.status.prepare then
    return ⟨some 1, ["Error preparing SQL statement: " ++ s.errmsg ++ "\n"], some rows⟩
  let sender ← t.sender.string 0
  match lookUp sender s.wallet with
  | .nullAddress => return ⟨some 1, ["Error: address is NULL\n"], some rows⟩
  | .absent => submit platform s t s.uninitKeys ["Address does not exist\n"] rows
  | .found row => do
    let walletKeys ← row.keys
    submit platform s t walletKeys [] rows

/-! ## Strings that end -/

/-- The buffers that are typed into end inside their arrays before anything is typed. -/
structure Submission.Terminated (s : Submission) : Prop where
  sender : 0 ∈ s.uninit.sender.bytes
  recipient : 0 ∈ s.uninit.recipient.bytes
  data : 0 ∈ s.uninit.data.bytes
  input : 0 ∈ s.uninitInput.bytes

structure NewTransaction.Terminated (t : NewTransaction) : Prop where
  sender : 0 ∈ t.sender.bytes
  recipient : 0 ∈ t.recipient.bytes
  data : 0 ∈ t.data.bytes
  unconfirmed : t.confirmed = 0

theorem exists_readAmount (strtold : CString → LongDouble) {tmpInput : Region 128}
    (h : 0 ∈ tmpInput.bytes) (input : List Byte) :
    ∃ amount tmpInput' input', readAmount strtold tmpInput input =
      some (amount, tmpInput', input') ∧ 0 ∈ tmpInput'.bytes := by
  obtain ⟨tmpInput', hCut, hZero⟩ := exists_cutNewline (mem_zero_fgets h input)
  obtain ⟨text, hText, _⟩ := tmpInput'.exists_string hZero
  refine ⟨strtold text, tmpInput', (fgets tmpInput input).2, ?_, hZero⟩
  simp only [readAmount, hCut, hText, Option.bind_eq_bind, Option.bind_some]
  rfl

theorem exists_typed {s : Submission} (h : s.Terminated) (strtold : CString → LongDouble) :
    ∃ t, s.typed strtold = some t ∧ t.Terminated := by
  have hSender := mem_zero_fgets h.sender (getchar s.stdin)
  obtain ⟨amount, first, input, hAmount, hFirst⟩ := exists_readAmount strtold h.input
    (fgets s.uninit.recipient (getchar (fgets s.uninit.sender (getchar s.stdin)).2)).2
  obtain ⟨minersFee, second, input', hMiners, hSecond⟩ := exists_readAmount strtold hFirst input
  obtain ⟨moonshotFee, third, input'', hMoonshot, _⟩ := exists_readAmount strtold hSecond input'
  obtain ⟨sender, hCut, hZero⟩ := exists_cutNewline hSender
  simp only [Submission.typed, hAmount, hMiners, hMoonshot, hCut, Option.bind_eq_bind,
    Option.bind_some]
  exact ⟨_, rfl, hZero, mem_zero_fgets h.recipient _, mem_zero_fgets h.data _, rfl⟩

theorem NewTransaction.exists_signatureText {t : NewTransaction} (h : t.confirmed = 0) :
    ∃ text, t.signatureText = some text := by
  have hZero : (0 : Byte) ∈ t.signature.bytes ++ (t.padding.bytes ++
      (List.range 4).map fun i => t.confirmed.extractLsb' (8 * i) 8) := by
    rw [h]
    exact List.mem_append_right _ (List.mem_append_right _ List.mem_cons_self)
  obtain ⟨text, hText, _⟩ := scan_of_mem hZero
  exact ⟨text, hText⟩

theorem exists_insertSql {t : NewTransaction} (h : t.Terminated) (txid : CString) :
    ∃ sql, insertSql t txid = some sql := by
  obtain ⟨sender, hSender, _⟩ := t.sender.exists_string h.sender
  obtain ⟨recipient, hRecipient, _⟩ := t.recipient.exists_string h.recipient
  obtain ⟨data, hData, _⟩ := t.data.exists_string h.data
  obtain ⟨signature, hSignature⟩ := t.exists_signatureText h.unconfirmed
  simp only [insertSql, hSender, hRecipient, hData, hSignature, Option.bind_eq_bind,
    Option.bind_some]
  exact ⟨_, rfl⟩

theorem exists_submit {platform : Platform} {s : Submission} {t : NewTransaction}
    (h : t.Terminated) {walletKeys : EncWallet} (hPrivate : 0 ∈ walletKeys.privateKey.bytes)
    (hPublic : 0 ∈ walletKeys.publicKey.bytes) (printed : List String) (rows : List PoolRow) :
    ∃ outcome, submit platform s t walletKeys printed rows = some outcome := by
  obtain ⟨sender, hSender, _⟩ := t.sender.exists_string h.sender
  obtain ⟨recipient, hRecipient, _⟩ := t.recipient.exists_string h.recipient
  obtain ⟨privateText, hPrivateText, _⟩ := walletKeys.privateKey.exists_string hPrivate
  obtain ⟨publicText, hPublicText, _⟩ := walletKeys.publicKey.exists_string hPublic
  obtain ⟨signing, hSigning⟩ : ∃ signing, signTransaction platform.sha3 platform.scheme s.random
      sender recipient t.amount walletKeys.privateKey walletKeys.publicKey t.signature =
        some signing := exists_signTransaction hPrivateText hPublicText
  let signed : NewTransaction := { t with signature := signing.signature }
  have hSigned : signed.Terminated := ⟨h.sender, h.recipient, h.data, h.unconfirmed⟩
  obtain ⟨sql, hSql⟩ := exists_insertSql hSigned (getTxid platform.sha3 platform.image signed)
  simp only [submit, hSender, hRecipient, hSigning, hSql, signed, Option.bind_eq_bind,
    Option.bind_some]
  split_ifs <;> exact ⟨_, rfl⟩

theorem mem_zero_keyField (length : Nat) (hex : CString) : 0 ∈ (keyField length hex).bytes := by
  have hTake := CString.length_take_le length hex
  apply List.mem_append_right
  exact List.mem_replicate.mpr ⟨by omega, rfl⟩

theorem WalletRow.mem_zero_keys {row : WalletRow} {walletKeys : EncWallet}
    (h : row.keys = some walletKeys) :
    0 ∈ walletKeys.privateKey.bytes ∧ 0 ∈ walletKeys.publicKey.bytes := by
  obtain ⟨privateKeyHex, _, h⟩ := Option.bind_eq_some_iff.mp h
  obtain ⟨publicKeyHex, _, h⟩ := Option.bind_eq_some_iff.mp h
  obtain rfl := Option.some.inj h
  exact ⟨mem_zero_keyField 5056 privateKeyHex, mem_zero_keyField 2624 publicKeyHex⟩

end Manhattan.Chain
