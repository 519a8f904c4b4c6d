import Manhattan.Chain.CreateTransaction
import Manhattan.Library.KeyedTables

/-! # What reaches the transaction pool

A sender that is not in the wallet is reported and nothing more, and the result of
`sign_transaction` is not looked at. The INSERT is therefore executed in every call that does
not return before it.
-/

namespace Manhattan.Chain

open Library.CStrings Library.Conversions Library.KeyedTables

/-! ## The wallet -/

def Passes (sender : CString) (rows : List WalletRow) : Prop :=
  ∀ row ∈ rows, ∃ address, row.address = some address ∧ address ≠ sender

/-- The first row that the loop does not go on behind -/
def ComesTo (sender : CString) (wallet : List WalletRow) (row : WalletRow) : Prop :=
  ∃ before after, wallet = before ++ row :: after ∧ Passes sender before

theorem ComesTo.cons {sender address : CString} {wallet : List WalletRow} {first row : WalletRow}
    (hAddress : first.address = some address) (hOther : address ≠ sender)
    (h : ComesTo sender wallet row) : ComesTo sender (first :: wallet) row := by
  obtain ⟨before, after, rfl, hBefore⟩ := h
  refine ⟨first :: before, after, rfl, ?_⟩
  intro r hr
  rcases List.mem_cons.mp hr with rfl | hMem
  · exact ⟨address, hAddress, hOther⟩
  · exact hBefore r hMem

theorem lookUp_cons_pass {sender address : CString} {first : WalletRow}
    (hAddress : first.address = some address) (hOther : address ≠ sender)
    (wallet : List WalletRow) : lookUp sender (first :: wallet) = lookUp sender wallet := by
  simp only [lookUp, hAddress, if_neg hOther]

theorem lookUp_append {sender : CString} {before : List WalletRow} (h : Passes sender before)
    (wallet : List WalletRow) : lookUp sender (before ++ wallet) = lookUp sender wallet := by
  induction before with
  | nil => rfl
  | cons first before ih =>
    obtain ⟨address, hAddress, hOther⟩ := h first List.mem_cons_self
    exact (lookUp_cons_pass hAddress hOther _).trans
      (ih fun row hRow => h row (List.mem_cons_of_mem first hRow))

theorem lookUp_cases (sender : CString) (wallet : List WalletRow) :
    lookUp sender wallet = .absent ∨ ∃ row, ComesTo sender wallet row ∧
      (row.address = none ∧ lookUp sender wallet = .nullAddress ∨
        row.address = some sender ∧ lookUp sender wallet = .found row) := by
  induction wallet with
  | nil => exact .inl rfl
  | cons first wallet ih =>
    have hHere : ComesTo sender (first :: wallet) first := ⟨[], wallet, rfl, nofun⟩
    rcases hAddress : first.address with _ | address
    · exact .inr ⟨first, hHere, .inl ⟨hAddress, by simp only [lookUp, hAddress]⟩⟩
    rcases eq_or_ne address sender with rfl | hOther
    · exact .inr ⟨first, hHere, .inr ⟨hAddress, by simp only [lookUp, hAddress, if_true]⟩⟩
    · rw [lookUp_cons_pass hAddress hOther]
      apply ih.imp_right
      rintro ⟨row, hComes, hRow⟩
      exact ⟨row, hComes.cons hAddress hOther, hRow⟩

theorem lookUp_eq_found_iff {sender : CString} {wallet : List WalletRow} {row : WalletRow} :
    lookUp sender wallet = .found row ↔ ComesTo sender wallet row ∧ row.address = some sender := by
  constructor
  · intro h
    rcases lookUp_cases sender wallet with hAbsent | ⟨r, hComes, ⟨_, hNull⟩ | ⟨hAddress, hFound⟩⟩
    · exact nomatch hAbsent.symm.trans h
    · exact nomatch hNull.symm.trans h
    · obtain rfl := Lookup.found.inj (hFound.symm.trans h)
      exact ⟨hComes, hAddress⟩
  · rintro ⟨⟨before, after, rfl, hBefore⟩, hAddress⟩
    rw [lookUp_append hBefore]
    simp only [lookUp, hAddress, if_true]

theorem lookUp_eq_nullAddress_iff {sender : CString} {wallet : List WalletRow} :
    lookUp sender wallet = .nullAddress ↔
      ∃ row, ComesTo sender wallet row ∧ row.address = none := by
  constructor
  · intro h
    rcases lookUp_cases sender wallet with hAbsent | ⟨r, hComes, ⟨hNull, _⟩ | ⟨_, hFound⟩⟩
    · exact nomatch hAbsent.symm.trans h
    · exact ⟨r, hComes, hNull⟩
    · exact nomatch hFound.symm.trans h
  · rintro ⟨row, ⟨before, after, rfl, hBefore⟩, hAddress⟩
    rw [lookUp_append hBefore]
    simp only [lookUp, hAddress]

/-! ## A call comes through -/

/-- The buffers and the keys that the call starts with end inside their arrays, and no key in the
wallet is NULL. -/
theorem exists_createTransaction (platform : Platform) {s : Submission} (h : s.Terminated)
    (hPrivate : 0 ∈ s.uninitKeys.privateKey.bytes) (hPublic : 0 ∈ s.uninitKeys.publicKey.bytes)
    (hWallet : ∀ row ∈ s.wallet, row.keys ≠ none) (pool : Pool) :
    ∃ outcome, createTransaction platform s pool = some outcome := by
  obtain ⟨t, hTyped, hTerminated⟩ := exists_typed h platform.strtold
  obtain ⟨sender, hSender, _⟩ := t.sender.exists_string hTerminated.sender
  simp only [createTransaction, hTyped, hSender, Option.bind_eq_bind, Option.bind_some]
  split_ifs
  · exact ⟨_, rfl⟩
  · exact ⟨_, rfl⟩
  · exact ⟨_, rfl⟩
  · exact ⟨_, rfl⟩
  rcases hLookUp : lookUp sender s.wallet with _ | _ | row
  · exact ⟨_, rfl⟩
  · exact exists_submit hTerminated hPrivate hPublic _ _
  · obtain ⟨⟨before, after, hRows, _⟩, _⟩ := lookUp_eq_found_iff.mp hLookUp
    have hMem : row ∈ s.wallet := hRows ▸ List.mem_append_right _ List.mem_cons_self
    obtain ⟨walletKeys, hKeys⟩ := Option.ne_none_iff_exists'.mp (hWallet row hMem)
    obtain ⟨hPrivate, hPublic⟩ := WalletRow.mem_zero_keys hKeys
    simp only [hKeys, Option.bind_some]
    exact exists_submit hTerminated hPrivate hPublic _ _

variable {platform : Platform} {s : Submission} {pool : Pool} {outcome : Outcome}

/-! ## The parts of a call -/

structure Submission.Typed (platform : Platform) (s : Submission) (t : NewTransaction)
    (sender recipient : CString) : Prop where
  typed : s.typed platform.strtold = some t
  sender : t.sender.string 0 = some sender
  recipient : t.recipient.string 0 = some recipient

def Submission.walletKeys (s : Submission) (sender : CString) : Option EncWallet :=
  match lookUp sender s.wallet with
  | .nullAddress => none
  | .absent => some s.uninitKeys
  | .found row => row.keys

def Submission.sign (platform : Platform) (s : Submission) (t : NewTransaction)
    (sender recipient : CString) (walletKeys : EncWallet) : Option Signing :=
  signTransaction platform.sha3 platform.scheme s.random sender recipient t.amount
    walletKeys.privateKey walletKeys.publicKey t.signature

def Submission.sql (platform : Platform) (s : Submission) : Option CString := do
  let t ← s.typed platform.strtold
  let sender ← t.sender.string 0
  let recipient ← t.recipient.string 0
  let walletKeys ← s.walletKeys sender
  let signing ← s.sign platform t sender recipient walletKeys
  let t := { t with signature := signing.signature }
  insertSql t (getTxid platform.sha3 platform.image t)

/-- A call of SQLite fails before the INSERT, or an address of the wallet that the loop comes
to is NULL. -/
def Submission.Stops (platform : Platform) (s : Submission) : Prop :=
  s.status ≠ ⟨true, true, true, true, true, true⟩ ∨
    ∃ t sender row, s.typed platform.strtold = some t ∧ t.sender.string 0 = some sender ∧
      ComesTo sender s.wallet row ∧ row.address = none

theorem later_of_status {status : Bool} {early : Outcome} {later : Option Outcome}
    (h : (if !status then some early else later) = some outcome) :
    status = false ∧ early = outcome ∨ status = true ∧ later = some outcome := by
  cases status with
  | false => exact .inl ⟨rfl, Option.some.inj h⟩
  | true => exact .inr ⟨rfl, h⟩

theorem Submission.Stops.of_false (call : Statuses → Bool)
    (hOk : call ⟨true, true, true, true, true, true⟩ = true) (h : call s.status = false) :
    s.Stops platform := by
  left
  intro hAll
  rw [hAll, hOk] at h
  cases h

theorem submit_rows {t : NewTransaction} {walletKeys : EncWallet} {printed : List String}
    {rows : List PoolRow} (h : submit platform s t walletKeys printed rows = some outcome) :
    ∃ sender recipient signing, t.sender.string 0 = some sender ∧
      t.recipient.string 0 = some recipient ∧
      s.sign platform t sender recipient walletKeys = some signing ∧
      (s.Stops platform ∧ outcome.pool = some rows ∨
        s.status.reopenPool = true ∧ s.status.openPoolAgain = true ∧
        ∃ sql, insertSql { t with signature := signing.signature }
            (getTxid platform.sha3 platform.image { t with signature := signing.signature }) =
              some sql ∧
          outcome.pool = some (platform.exec sql rows).1) := by
  obtain ⟨sender, hSender, h⟩ := Option.bind_eq_some_iff.mp h
  obtain ⟨recipient, hRecipient, h⟩ := Option.bind_eq_some_iff.mp h
  obtain ⟨signing, hSigning, h⟩ := Option.bind_eq_some_iff.mp h
  refine ⟨sender, recipient, signing, hSender, hRecipient, hSigning, ?_⟩
  rcases later_of_status h with ⟨hReopen, rfl⟩ | ⟨hReopen, h⟩
  · exact .inl ⟨.of_false Statuses.reopenPool rfl hReopen, rfl⟩
  obtain ⟨sql, hSql, h⟩ := Option.bind_eq_some_iff.mp h
  rcases later_of_status h with ⟨hAgain, rfl⟩ | ⟨hAgain, h⟩
  · exact .inl ⟨.of_false Statuses.openPoolAgain rfl hAgain, rfl⟩
  obtain rfl := Option.some.inj h
  exact .inr ⟨hReopen, hAgain, sql, hSql, rfl⟩

/-- A call either returns before the INSERT and leaves the rows, or executes it. -/
inductive Submission.Ends (platform : Platform) (s : Submission) (pool : Pool)
    (outcome : Outcome) : Prop
  | early (stops : s.Stops platform) (rows : outcome.pool.rows = pool.rows)
  | inserts (goesOn : ¬s.Stops platform) (sql : CString) (text : s.sql platform = some sql)
      (rows : outcome.pool.rows = (platform.exec sql pool.rows).1)

theorem Submission.goesOn {t : NewTransaction} {sender : CString} {walletKeys : EncWallet}
    (hStatus : s.status = ⟨true, true, true, true, true, true⟩)
    (hTyped : s.typed platform.strtold = some t) (hSender : t.sender.string 0 = some sender)
    (hKeys : s.walletKeys sender = some walletKeys) : ¬s.Stops platform := by
  rintro (hFailed | ⟨t', sender', row, hTyped', hSender', hComes, hNull⟩)
  · exact hFailed hStatus
  · obtain rfl := Option.some.inj (hTyped.symm.trans hTyped')
    obtain rfl := Option.some.inj (hSender.symm.trans hSender')
    rw [Submission.walletKeys, lookUp_eq_nullAddress_iff.mpr ⟨row, hComes, hNull⟩] at hKeys
    cases hKeys

theorem submit_ends {t : NewTransaction} {sender : CString} {walletKeys : EncWallet}
    {printed : List String}
    (hStatus : s.status =
      ⟨true, true, true, true, s.status.reopenPool, s.status.openPoolAgain⟩)
    (hTyped : s.typed platform.strtold = some t) (hSender : t.sender.string 0 = some sender)
    (hKeys : s.walletKeys sender = some walletKeys)
    (h : submit platform s t walletKeys printed pool.rows = some outcome) :
    s.Ends platform pool outcome := by
  obtain ⟨sender', recipient, signing, hSender', hRecipient, hSigning, hEnd⟩ := submit_rows h
  obtain rfl := Option.some.inj (hSender.symm.trans hSender')
  rcases hEnd with ⟨hStops, hPool⟩ | ⟨hReopen, hAgain, sql, hSql, hPool⟩
  · refine .early hStops ?_
    rw [hPool]
    rfl
  · have hText : s.sql platform = some sql := by
      simp only [Submission.sql, hTyped, hSender, hRecipient, hKeys, hSigning,
        Option.bind_eq_bind, Option.bind_some, hSql]
    rw [hReopen, hAgain] at hStatus
    refine .inserts (s.goesOn hStatus hTyped hSender hKeys) sql hText ?_
    rw [hPool]
    rfl

theorem createTransaction_ends (h : createTransaction platform s pool = some outcome) :
    s.Ends platform pool outcome := by
  rcases later_of_status h with ⟨hOpen, rfl⟩ | ⟨hOpen, h⟩
  · exact .early (.of_false Statuses.openPool rfl hOpen) rfl
  rcases later_of_status h with ⟨hCreate, rfl⟩ | ⟨hCreate, h⟩
  · exact .early (.of_false Statuses.createTable rfl hCreate) rfl
  obtain ⟨t, hTyped, h⟩ := Option.bind_eq_some_iff.mp h
  rcases later_of_status h with ⟨hWallet, rfl⟩ | ⟨hWallet, h⟩
  · exact .early (.of_false Statuses.openWallet rfl hWallet) rfl
  rcases later_of_status h with ⟨hPrepare, rfl⟩ | ⟨hPrepare, h⟩
  · exact .early (.of_false Statuses.prepare rfl hPrepare) rfl
  obtain ⟨sender, hSender, h⟩ := Option.bind_eq_some_iff.mp h
  have hStatus : s.status =
      ⟨true, true, true, true, s.status.reopenPool, s.status.openPoolAgain⟩ := by
    calc s.status = ⟨s.status.openPool, s.status.createTable, s.status.openWallet,
          s.status.prepare, s.status.reopenPool, s.status.openPoolAgain⟩ := rfl
      _ = _ := by rw [hOpen, hCreate, hWallet, hPrepare]
  rcases hLookUp : lookUp sender s.wallet with _ | _ | row
  · rw [hLookUp] at h
    obtain rfl := Option.some.inj h
    obtain ⟨row, hComes, hNull⟩ := lookUp_eq_nullAddress_iff.mp hLookUp
    exact .early (.inr ⟨t, sender, row, hTyped, hSender, hComes, hNull⟩) rfl
  · rw [hLookUp] at h
    exact submit_ends hStatus hTyped hSender (by rw [Submission.walletKeys, hLookUp]) h
  · rw [hLookUp] at h
    obtain ⟨walletKeys, hKeys, h⟩ := Option.bind_eq_some_iff.mp h
    have hWalletKeys : s.walletKeys sender = some walletKeys := by
      rw [Submission.walletKeys, hLookUp]
      exact hKeys
    exact submit_ends hStatus hTyped hSender hWalletKeys h

/-! ## Only signed transactions -/

/-- The sender is found in the wallet, and `sign_transaction` succeeds with the keys of the row
that is found. -/
def Submission.Signed (platform : Platform) (s : Submission) : Prop :=
  ∃ t sender recipient row walletKeys signing, s.Typed platform t sender recipient ∧
    lookUp sender s.wallet = .found row ∧ row.keys = some walletKeys ∧
    s.sign platform t sender recipient walletKeys = some signing ∧ signing.returned = none

/-- What the code asks of a signing: a row with the address before any row without one, keys and
addresses of the right lengths, and two successes of the signature library. -/
def Submission.Signable (platform : Platform) (s : Submission) : Prop :=
  ∃ t sender recipient row walletKeys, s.Typed platform t sender recipient ∧
    ComesTo sender s.wallet row ∧ row.address = some sender ∧ row.keys = some walletKeys ∧
    SigningChecks platform.sha3 platform.scheme s.random sender recipient t.amount
      walletKeys.privateKey walletKeys.publicKey

theorem signed_iff_signable : s.Signed platform ↔ s.Signable platform := by
  constructor
  · rintro ⟨t, sender, recipient, row, walletKeys, signing, hTyped, hFound, hKeys, hSigning,
      hReturned⟩
    obtain ⟨hComes, hAddress⟩ := lookUp_eq_found_iff.mp hFound
    exact ⟨t, sender, recipient, row, walletKeys, hTyped, hComes, hAddress, hKeys,
      (signing_of_success hSigning hReturned).1⟩
  · rintro ⟨t, sender, recipient, row, walletKeys, hTyped, hComes, hAddress, hKeys, hChecks⟩
    obtain ⟨signing, hSigning, hReturned⟩ := hChecks.exists_signing t.signature
    exact ⟨t, sender, recipient, row, walletKeys, signing, hTyped,
      lookUp_eq_found_iff.mpr ⟨hComes, hAddress⟩, hKeys, hSigning, hReturned⟩

/-- SQLite answers the INSERT, if the call comes to it, with other rows than before. -/
def Submission.InsertChanges (platform : Platform) (s : Submission) (rows : List PoolRow) : Prop :=
  ∀ sql, s.sql platform = some sql → (platform.exec sql rows).1 ≠ rows

theorem Submission.Ends.signed (h : s.Ends platform pool outcome)
    (hEnough : s.Stops platform ∨ s.Signable platform) (hChanged : outcome.pool.rows ≠ pool.rows) :
    s.Signed platform := by
  rcases h with ⟨_, hSame⟩ | ⟨hGoesOn, _, _, _⟩
  · exact absurd hSame hChanged
  · exact signed_iff_signable.mpr (hEnough.resolve_left hGoesOn)

theorem Submission.Ends.changed (h : s.Ends platform pool outcome)
    (hInsert : s.InsertChanges platform pool.rows) (hGoesOn : ¬s.Stops platform) :
    outcome.pool.rows ≠ pool.rows := by
  rcases h with ⟨hStops, _⟩ | ⟨_, sql, hSql, hRows⟩
  · exact absurd hStops hGoesOn
  · rw [hRows]
    exact hInsert sql hSql

/-- That the call returns before the INSERT or the transaction can be signed is enough for the rows to
change for a signed transaction only. It is needed too wherever SQLite changes them on the INSERT. -/
theorem createTransaction_signed_iff (platform : Platform) (s : Submission) (pool : Pool)
    (outcome : Outcome) (h : createTransaction platform s pool = some outcome) :
    (s.Stops platform ∨ s.Signable platform →
      (outcome.pool.rows ≠ pool.rows → s.Signed platform)) ∧
    (s.InsertChanges platform pool.rows →
      ((outcome.pool.rows ≠ pool.rows → s.Signed platform) ↔
        s.Stops platform ∨ s.Signable platform)) := by
  have hEnds := createTransaction_ends h
  refine ⟨hEnds.signed, fun hInsert => ⟨fun hSigned => ?_, hEnds.signed⟩⟩
  by_cases hStops : s.Stops platform
  · exact .inl hStops
  · exact .inr (signed_iff_signable.mp (hSigned (hEnds.changed hInsert hStops)))

/-! ## SQLite on an INSERT -/

/-- The items of a list of values, up to the parenthesis that closes it. -/
def items (quoted : Bool) (item : List Byte) : List Byte → List (List Byte)
  | [] => []
  | b :: rest =>
    if b = 39 then items (!quoted) item rest
    else if quoted then items quoted (item ++ [b]) rest
    else if b = 44 then item :: items quoted [] rest
    else if b = 41 then [item]
    else if b = 32 then items quoted item rest
    else items quoted (item ++ [b]) rest

def textOf (bytes : List Byte) : CString := ⟨bytes.filter (· ≠ 0), by simp⟩

/-- A `REAL` with few digits, from the text of `%Lf`. -/
def realText (bytes : List Byte) : CString :=
  let digits := (bytes.reverse.dropWhile (· = 48)).reverse
  textOf (if digits.getLast? = some 46 then digits ++ [48] else digits)

def readRow (sql : CString) : Option PoolRow :=
  match items false [] (sql.drop insertColumns.length).chars with
  | [txid, sender, recipient, amount, minersFee, moonshotFee, data, dataType, timestamp, signature,
      confirmed] => some {
    txid := textOf txid
    sender := textOf sender
    recipient := textOf recipient
    amount := realText amount
    minersFee := realText minersFee
    moonshotFee := realText moonshotFee
    data := textOf data
    dataType := textOf dataType
    timestamp := textOf timestamp
    signature := textOf signature
    confirmed := textOf confirmed }
  | _ => none

def execInsert (sql : CString) (rows : List PoolRow) : List PoolRow × Option String :=
  match readRow sql with
  | none => (rows, some "near \"INSERT\": syntax error")
  | some row => (insertAbsent PoolRow.txid rows row,
      if row.txid ∈ rows.map PoolRow.txid then some "UNIQUE constraint failed: transactions.txid"
      else none)

/-! ## A sender that is not in the wallet -/

def one : LongDouble := .finite false (BitVec.ofNat 64 (2 ^ 63)) ⟨16382, by decide⟩

def onesPlatform : Platform where
  sha3 _ := ⟨(Region.zeros 48).bytes, (Region.zeros 48).length_bytes⟩
  scheme := echoScheme
  strtold _ := one
  image _ := []
  exec := execInsert

def alice : Submission where
  stdin := (CString.ascii "\nalice\nbob\n1\n1\n1\nhello\n1\n").chars
  wallet := []
  clock := 1000
  random := []
  status := ⟨true, true, true, true, true, true⟩
  errmsg := "not an error"
  uninit := ⟨.zeros 72, .zeros 72, one, one, one, .zeros 1024, 0, 0, .zeros 4841,
    .zeros 3, 0, .zeros 96⟩
  uninitInput := .zeros 128
  uninitKeys := ⟨.zeros 2625, .zeros 5057⟩

def aliceRow : PoolRow where
  txid := zerosText 96
  sender := .ascii "alice"
  recipient := .ascii "ob\n"
  amount := .ascii "1.0"
  minersFee := .ascii "1.0"
  moonshotFee := .ascii "1.0"
  data := .ascii "ello\n"
  dataType := .ascii "1"
  timestamp := .ascii "1000"
  signature := .empty
  confirmed := .ascii "0"

def aliceOutcome : Outcome where
  returned := none
  printed := ["Address does not exist\n", "ERROR: Invalid private key.\n"]
  pool := some [aliceRow]

theorem createTransaction_alice :
    createTransaction onesPlatform alice none = some aliceOutcome := by
  unfold onesPlatform execInsert readRow createTransaction submit insertSql insertColumns
  rw [CString.ascii_ofList]
  decide +kernel

theorem createTransaction_signed_iff_alice :
    (alice.Stops onesPlatform ∨ alice.Signable onesPlatform →
      (aliceOutcome.pool.rows ≠ Pool.rows none → alice.Signed onesPlatform)) ∧
    (alice.InsertChanges onesPlatform (Pool.rows none) →
      ((aliceOutcome.pool.rows ≠ Pool.rows none → alice.Signed onesPlatform) ↔
        alice.Stops onesPlatform ∨ alice.Signable onesPlatform)) :=
  createTransaction_signed_iff onesPlatform alice none aliceOutcome createTransaction_alice

/-- The wallet is empty and nothing is signed; the row is inserted. -/
theorem unsigned_inserted :
    alice.wallet = [] ∧ createTransaction onesPlatform alice none = some aliceOutcome ∧
      aliceOutcome.pool.rows ≠ Pool.rows none ∧ ¬alice.Signed onesPlatform := by
  refine ⟨rfl, createTransaction_alice, List.cons_ne_nil _ _, ?_⟩
  rintro ⟨_, _, _, _, _, _, _, hFound, _⟩
  cases hFound

end Manhattan.Chain
