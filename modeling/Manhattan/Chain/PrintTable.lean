import Manhattan.Chain.Bundles
import Manhattan.Chain.Sessions
import Manhattan.Library.Labelled
import Manhattan.Library.Pieces

/-! # What print_table prints

Each column of each row is printed on a line of its own behind its name, and a blank line ends the
row. A value that ends with a newline, as `fgets` leaves it, makes a blank line too. Still the text
tells the rows of the pool, unlike the bundle that `create_block` makes of them, and those of the
wallet.
-/

namespace Manhattan.Chain

open Library Library.CStrings Library.Conversions Library.Labelled Library.StandardInput

/-- The columns of a table and its rows, as `sqlite3_exec` hands them over; nothing stands for NULL. -/
structure Table where
  names : List CString
  rows : List (List (Option CString))

/-- `argv[i] ? argv[i] : "NULL"` -/
def argument (value : Option CString) : CString := value.getD (.ascii "NULL")

/-- The line of one column -/
def columnLine (name : CString) (value : Option CString) : CString :=
  name ++ .ascii " = " ++ argument value ++ newline

def callback (names : List CString) (argv : List (Option CString)) : CString :=
  CString.flatMap id (List.zipWith columnLine names argv) ++ newline

/-- `selected` is the table of the SELECT; nothing stands for one that fails. -/
def printTable (opened : Bool) (selected : Option Table) : CString :=
  if !opened then .empty
  else
    match selected with
    | none => .empty
    | some table => CString.flatMap (callback table.names) table.rows

def poolTable (rows : List PoolRow) : Table where
  names := columnNames.map .ascii
  rows := rows.map fun row => row.columns.map some

/-- What `generate_address` inserts as `statement` and `balance` is the same in all rows. -/
def WalletRow.columns (row : WalletRow) : List (Option CString) :=
  [row.address, row.privateKey, row.publicKey, some (.ascii "Address Generated"),
    some (.ascii " 0")]

def walletColumns : List CString :=
  ["address", "private_key", "public_key", "statement", "balance"].map .ascii

def walletTable (rows : List WalletRow) : Table where
  names := walletColumns
  rows := rows.map WalletRow.columns

/-! ## The text as labelled values -/

def labelOf (name : CString) : List Byte := name.chars ++ (CString.ascii " = ").chars

theorem chars_callback (names : List CString) (argv : List (Option CString)) :
    (callback names argv).chars = record newlineByte (names.map labelOf)
      (argv.map fun value => (argument value).chars) := by
  have hColumns : (List.zipWith columnLine names argv).flatMap CString.chars =
      entries newlineByte (names.map labelOf) (argv.map fun value => (argument value).chars) := by
    rw [entries, List.zipWith_map, List.flatMap_def, List.map_zipWith]
    rfl
  rw [record, ← hColumns]
  rfl

theorem labels_names {names : List CString}
    (h : ∀ name ∈ names, ∃ first more, name.chars = first :: more ∧ first ≠ newlineByte) :
    Labels newlineByte (names.map labelOf) := by
  intro label hLabel
  obtain ⟨name, hName, rfl⟩ := List.mem_map.mp hLabel
  obtain ⟨first, more, hChars, hFirst⟩ := h name hName
  exact ⟨first, more ++ (CString.ascii " = ").chars, by rw [labelOf, hChars]; rfl, hFirst⟩

/-- Rows that are printed alike are equal, where no value is NULL and each can be told. -/
theorem printTable_inj {name : CString} {names : List CString} {rows rows' : List (List CString)}
    (hNames : ∀ n ∈ name :: names, ∃ first more, n.chars = first :: more ∧ first ≠ newlineByte)
    (h : ∀ row ∈ rows, Told newlineByte (row.map CString.chars) ∧
      row.length = (name :: names).length)
    (h' : ∀ row ∈ rows', Told newlineByte (row.map CString.chars) ∧
      row.length = (name :: names).length)
    (hText : printTable true (some ⟨name :: names, rows.map (List.map some)⟩) =
      printTable true (some ⟨name :: names, rows'.map (List.map some)⟩)) : rows = rows' := by
  have hChars (rows : List (List CString)) :
      (printTable true (some ⟨name :: names, rows.map (List.map some)⟩)).chars =
        (rows.map (List.map CString.chars)).flatMap
          (record newlineByte ((name :: names).map labelOf)) := by
    change (rows.map (List.map some)).flatMap (fun argv => (callback (name :: names) argv).chars) = _
    rw [List.flatMap_map, List.flatMap_map]
    refine congrArg rows.flatMap (funext fun row => ?_)
    rw [chars_callback, List.map_map]
    rfl
  have hTold {rows : List (List CString)} (h : ∀ row ∈ rows,
      Told newlineByte (row.map CString.chars) ∧ row.length = (name :: names).length) :
      ∀ values ∈ rows.map (List.map CString.chars), Told newlineByte values ∧
        values.length = ((name :: names).map labelOf).length := by
    intro values hValues
    obtain ⟨row, hRow, rfl⟩ := List.mem_map.mp hValues
    rw [List.length_map, List.length_map]
    exact h row hRow
  have hRecords := congrArg CString.chars hText
  rw [hChars, hChars] at hRecords
  have hRows := flatMap_record_inj (labels_names hNames) (hTold h) (hTold h') hRecords
  exact List.map_injective_iff.mpr (List.map_injective_iff.mpr fun _ _ => CString.ext) hRows

/-! ## The pool -/

theorem columns_injective : Function.Injective PoolRow.columns := by
  intro row row' h
  cases row
  cases row'
  simpa [PoolRow.columns] using h

theorem PoolRow.Signed.told {row : PoolRow} (h : row.Signed) :
    Told newlineByte row.texts where
  inner := h.newline_last
  last := by
    intro text hText
    obtain rfl := Option.some.inj hText
    exact (h.numbers row.confirmed (by simp [PoolRow.numbers])).2

theorem first_columnNames : ∀ n ∈ columnNames.map CString.ascii,
    ∃ first more, n.chars = first :: more ∧ first ≠ newlineByte := by
  intro n hn
  obtain ⟨name, hName, rfl⟩ := List.mem_map.mp hn
  fin_cases hName <;> exact ⟨_, _, rfl, by decide⟩

/-- For a signature: the end of a row and the beginning of `onesRow`, as they are printed. -/
def imitatingRow : PoolRow :=
  { aliceRow with
    signature := .ascii "\nconfirmed = 0\n\ntxid = " ++ onesRow.txid ++
      .ascii "\nsender = alice\nrecipient = ob\n\namount = 1.0\nminers_fee = 1.0\nmoonshot_fee = 1.0" ++
      .ascii "\ndata = ello\n\ndata_type = 1\ntimestamp = 1000\nsignature = " }

example : printTable true (some (poolTable [imitatingRow])) =
    printTable true (some (poolTable [aliceRow, onesRow])) := by decide +kernel

/-! ## The wallet -/

theorem newline_not_mem_base58 (bin : List Byte) : newlineByte ∉ (base58 bin).chars := by
  intro hMem
  have hDigit := mem_base58Text hMem
  revert hDigit
  decide

theorem newline_not_mem_keyText (key : List Byte) : newlineByte ∉ (keyText key).chars := by
  intro hMem
  obtain ⟨b, -, hByte⟩ := List.mem_flatMap.mp hMem
  have hDigits : ∀ d < 16, newlineByte ≠ upperHexDigit d := by decide
  rw [chars_encoded, List.mem_pair] at hByte
  obtain hHigh | hLow := hByte
  · exact hDigits _ (div_sixteen_lt b) hHigh
  · exact hDigits _ (mod_sixteen_lt b) hLow

theorem first_walletColumns : ∀ n ∈ walletColumns,
    ∃ first more, n.chars = first :: more ∧ first ≠ newlineByte := by
  intro n hn
  obtain ⟨name, hName, rfl⟩ := List.mem_map.mp hn
  fin_cases hName <;> exact ⟨_, _, rfl, by decide⟩

/-- The texts of the row that a round inserts -/
def RoundCalls.texts (sha3 : Hash) (calls : RoundCalls) : List CString :=
  [calls.address sha3, keyText calls.privateKey.bytes, keyText calls.publicKey.bytes,
    .ascii "Address Generated", .ascii " 0"]

theorem columns_round (sha3 : Hash) (calls : RoundCalls) :
    (calls.round sha3).row.columns = (calls.texts sha3).map some := rfl

theorem RoundCalls.told (sha3 : Hash) (calls : RoundCalls) :
    Told newlineByte ((calls.texts sha3).map CString.chars) := by
  have hNone : ∀ text ∈ (calls.texts sha3).map CString.chars, newlineByte ∉ text := by
    simp only [RoundCalls.texts, List.map_cons, List.map_nil, List.forall_mem_cons]
    exact ⟨newline_not_mem_base58 _, newline_not_mem_keyText _, newline_not_mem_keyText _,
      by decide, by decide, nofun⟩
  constructor
  · exact fun text hText hMem => hNone text hText (List.mem_of_mem_dropLast hMem)
  · exact fun text hText => hNone text (List.mem_of_getLast? hText)

/-- Whatever was chosen from the menu before: of two wallets the same text is printed if and only if
they have the same rows. -/
theorem print_table_wallet (platform : Platform) (sha384 : Hash) (sqlite : Sqlite)
    (meets : Session → Outside → Item → Prop) (stdin stdin' : List Byte) (s s' : Session)
    (hs : (Session.first stdin).Leads platform sha384 sqlite meets s)
    (hs' : (Session.first stdin').Leads platform sha384 sqlite meets s') :
    printTable true (some (walletTable s.wallet)) = printTable true (some (walletTable s'.wallet)) ↔
      s.wallet = s'.wallet := by
  obtain ⟨turns, hTurns⟩ := hs.exists_turns
  obtain ⟨turns', hTurns'⟩ := hs'.exists_turns
  have hWallet := hTurns.wallet
  have hWallet' := hTurns'.wallet
  rw [Session.first, List.nil_append] at hWallet hWallet'
  have hTold (rounds : List RoundCalls) : ∀ texts ∈ rounds.map (RoundCalls.texts platform.sha3),
      Told newlineByte (texts.map CString.chars) ∧ texts.length = walletColumns.length := by
    intro texts hTexts
    obtain ⟨calls, -, rfl⟩ := List.mem_map.mp hTexts
    exact ⟨calls.told platform.sha3, rfl⟩
  have hTable (rounds : List RoundCalls) :
      walletTable (rounds.map fun calls => (calls.round platform.sha3).row) =
        ⟨walletColumns, (rounds.map (RoundCalls.texts platform.sha3)).map (List.map some)⟩ := by
    rw [walletTable, List.map_map, List.map_map]
    exact congrArg (Table.mk walletColumns)
      (List.map_congr_left fun calls _ => columns_round platform.sha3 calls)
  have hRows (rounds : List RoundCalls) :
      (rounds.map fun calls => (calls.round platform.sha3).row) =
        (rounds.map (RoundCalls.texts platform.sha3)).map fun texts =>
          ⟨texts[0]?, texts[1]?, texts[2]?⟩ := by
    rw [List.map_map]
    rfl
  rw [hWallet, hWallet']
  constructor
  · intro hText
    rw [hTable, hTable] at hText
    rw [hRows, hRows, printTable_inj first_walletColumns (hTold _) (hTold _) hText]
  · intro hSame
    rw [hSame]

theorem print_table_wallet_pair :
    ∃ s, (Session.first [49]).Leads onesPlatform lengthHash Sqlite.first (fun _ _ _ => True) s ∧
      printTable true (some (walletTable s.wallet)) ≠
        printTable true (some (walletTable (Session.first [49]).wallet)) := by
  obtain ⟨s, hs, hLength⟩ := exists_takes_wallet
  refine ⟨s, hs.leads, fun hText => ?_⟩
  have hSame := (print_table_wallet onesPlatform lengthHash Sqlite.first _ [49] [49] s _ hs.leads
    .refl).mp hText
  rw [hSame] at hLength
  cases hLength

end Manhattan.Chain
