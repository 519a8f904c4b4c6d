import Manhattan.Chain.Inclusion
import Manhattan.Library.Separated

/-! # What a transaction bundle tells of the pool

`create_block` puts a comma behind each column and a newline behind each row, and escapes
neither. Of signed transactions the rows and the columns at both ends of a row can be told from the
text. The columns from the sender to the data cannot where the texts typed in have commas. In place of
a signature there may be other rows.
-/

namespace Manhattan.Chain

open Library.CStrings Library.Separated Library.StandardInput

def commaByte : Byte := 44

/-! ## The rows of signed transactions -/

def PoolRow.numbers (row : PoolRow) : List CString :=
  [row.amount, row.minersFee, row.moonshotFee, row.dataType, row.timestamp, row.confirmed]

/-- A row of texts that were typed in and of a signature. The newline of the sender is cut off, and
`fgets` leaves the one of the recipient and of the data at their ends. The numbers are in the notation
of SQLite. A transaction that could not be signed is stored with what its struct held for a signature,
and such a row may have any text there. -/
structure PoolRow.Signed (row : PoolRow) : Prop where
  txid : ∀ b ∈ row.txid.chars, b ∈ lowerHexDigits
  length_txid : row.txid.length = 96
  sender : newlineByte ∉ row.sender.chars
  recipient : newlineByte ∉ row.recipient.chars.dropLast
  data : newlineByte ∉ row.data.chars.dropLast
  numbers : ∀ text ∈ row.numbers, commaByte ∉ text.chars ∧ newlineByte ∉ text.chars
  signature : ∀ b ∈ row.signature.chars, b ∈ lowerHexDigits

theorem newline_not_mem_line (room : Nat) (input : List Byte) :
    newlineByte ∉ (line room input).dropLast := by
  induction room generalizing input with
  | zero => simp [line]
  | succ room ih =>
    cases input with
    | nil => simp [line]
    | cons b input =>
      rw [line]
      split
      · simp
      · rename_i hb
        cases hLine : line room input with
        | nil => simp
        | cons c more =>
          have hRest := ih input
          rw [hLine] at hRest
          rw [List.dropLast_cons_cons, List.mem_cons, not_or]
          exact ⟨fun hEq => hb hEq.symm, hRest⟩

/-- A recipient and a data text that are typed are such lines. -/
theorem newline_not_mem_fgets {room : Nat} {r : Region (room + 1)} {input : List Byte}
    (hInput : input ≠ []) {text : CString} (h : (fgets r input).1.string 0 = some text) :
    newlineByte ∉ text.chars.dropLast := by
  cases input with
  | nil => exact absurd rfl hInput
  | cons b input =>
    obtain ⟨rest, hRest⟩ := exists_of_scan h
    have hBytes : line room (b :: input) ++ 0 :: r.bytes.drop (line room (b :: input) ++ [0]).length =
        text.chars ++ 0 :: rest := by
      rw [← hRest]
      simp [fgets, Region.write]
    have hPrefix : ∃ m, line room (b :: input) = text.chars ++ m := by
      rcases List.append_eq_append_iff.mp hBytes with ⟨m, hText, hTail⟩ | ⟨m, hLine, _⟩
      · cases m with
        | nil => exact ⟨[], by simp [hText]⟩
        | cons c m =>
          have hZero : 0 ∈ text.chars := by
            rw [hText, (List.cons.inj hTail).1]
            simp
          exact absurd hZero text.noNul
      · exact ⟨m, hLine⟩
    obtain ⟨m, hLine⟩ := hPrefix
    have hNewline := newline_not_mem_line room (b :: input)
    rw [hLine] at hNewline
    intro hMem
    cases m with
    | nil => exact hNewline (by rwa [List.append_nil])
    | cons c m =>
      rw [List.dropLast_append_of_ne_nil (List.cons_ne_nil c m)] at hNewline
      exact hNewline (List.mem_append_left _ (List.mem_of_mem_dropLast hMem))

theorem newline_not_mem_cut {size : Nat} {r r' : Region size} (h : cutNewline r = some r') :
    ∃ text, r'.string 0 = some text ∧ newlineByte ∉ text.chars := by
  obtain ⟨text, hText, hCopy⟩ := Option.bind_eq_some_iff.mp h
  have hIndex : text.chars.idxOf newlineByte ≤ text.length := List.idxOf_le_length
  rw [← Nat.zero_add (text.chars.idxOf newlineByte)] at hCopy
  refine ⟨_, Region.string_strcpy_add hText hIndex hCopy, ?_⟩
  intro hMem
  have hTake : newlineByte ∈ text.chars.take (text.chars.idxOf newlineByte) := by
    simpa [CString.empty] using hMem
  exact Nat.lt_irrefl _ ((List.mem_take_iff_idxOf_lt (List.mem_of_mem_take hTake)).mp hTake)

/-! ## One line -/

/-- The columns that hold what was typed in, and the amounts between them. -/
def PoolRow.middle (row : PoolRow) : List (List Byte) :=
  [row.sender, row.recipient, row.amount, row.minersFee, row.moonshotFee, row.data].map
    CString.chars

/-- The rows differ at most in where the commas of one text end the columns. -/
structure PoolRow.Alike (row row' : PoolRow) : Prop where
  txid : row.txid = row'.txid
  middle : terminated commaByte row.middle = terminated commaByte row'.middle
  dataType : row.dataType = row'.dataType
  timestamp : row.timestamp = row'.timestamp
  signature : row.signature = row'.signature
  confirmed : row.confirmed = row'.confirmed

def PoolRow.texts (row : PoolRow) : List (List Byte) := row.columns.map CString.chars

theorem chars_poolLine (columns : List CString) :
    (poolLine columns).chars = terminated commaByte (columns.map CString.chars) ++ [newlineByte] := by
  induction columns with
  | nil => rfl
  | cons column columns ih =>
    simp only [poolLine, CString.chars_append, ih, List.map_cons, terminated_cons]
    simp [comma, commaByte]

theorem texts_eq (row : PoolRow) : row.texts = [row.txid.chars] ++ row.middle ++
    [row.dataType.chars] ++ [row.timestamp.chars] ++ [row.signature.chars] ++
    [row.confirmed.chars] := rfl

theorem separators_not_hex : commaByte ∉ lowerHexDigits ∧ newlineByte ∉ lowerHexDigits := by decide

variable {row row' : PoolRow} {p p' : List PoolRow}

theorem PoolRow.Signed.newline_last (h : row.Signed) :
    ∀ text ∈ row.texts, newlineByte ∉ text.dropLast := by
  have hDrop : ∀ {text : List Byte}, newlineByte ∉ text → newlineByte ∉ text.dropLast :=
    fun hText hMem => hText (List.mem_of_mem_dropLast hMem)
  have hNumbers := h.numbers
  simp only [PoolRow.numbers, List.forall_mem_cons] at hNumbers
  obtain ⟨hAmount, hMiners, hMoonshot, hType, hTimestamp, hConfirmed, _⟩ := hNumbers
  have hTxid : newlineByte ∉ row.txid.chars := fun hMem => separators_not_hex.2 (h.txid _ hMem)
  have hSignature : newlineByte ∉ row.signature.chars := fun hMem =>
    separators_not_hex.2 (h.signature _ hMem)
  simp only [PoolRow.texts, PoolRow.columns, List.map_cons, List.map_nil, List.forall_mem_cons]
  exact ⟨hDrop hTxid, hDrop h.sender, h.recipient, hDrop hAmount.2, hDrop hMiners.2,
    hDrop hMoonshot.2, h.data, hDrop hType.2, hDrop hTimestamp.2, hDrop hSignature,
    hDrop hConfirmed.2, nofun⟩

theorem PoolRow.Signed.ends (h : row.Signed) : commaByte ∉ row.txid.chars ∧
    commaByte ∉ row.dataType.chars ∧ commaByte ∉ row.timestamp.chars ∧
    commaByte ∉ row.signature.chars ∧ commaByte ∉ row.confirmed.chars := by
  have hNumbers := h.numbers
  simp only [PoolRow.numbers, List.forall_mem_cons] at hNumbers
  obtain ⟨_, _, _, hType, hTimestamp, hConfirmed, _⟩ := hNumbers
  exact ⟨fun hMem => separators_not_hex.1 (h.txid _ hMem), hType.1, hTimestamp.1,
    fun hMem => separators_not_hex.1 (h.signature _ hMem), hConfirmed.1⟩

theorem line_eq_iff (h : row.Signed) (h' : row'.Signed) :
    terminated commaByte row.texts = terminated commaByte row'.texts ↔ row.Alike row' := by
  rw [texts_eq, texts_eq]
  constructor
  · intro hLine
    obtain ⟨hTxid, hType, hTimestamp, hSignature, hConfirmed⟩ := h.ends
    obtain ⟨hTxid', hType', hTimestamp', hSignature', hConfirmed'⟩ := h'.ends
    obtain ⟨hLine, hConfirmedEq⟩ := terminated_concat_inj hConfirmed hConfirmed' hLine
    obtain ⟨hLine, hSignatureEq⟩ := terminated_concat_inj hSignature hSignature' hLine
    obtain ⟨hLine, hTimestampEq⟩ := terminated_concat_inj hTimestamp hTimestamp' hLine
    obtain ⟨hLine, hTypeEq⟩ := terminated_concat_inj hType hType' hLine
    rw [List.singleton_append, List.singleton_append, terminated_cons, terminated_cons] at hLine
    obtain ⟨hTxidEq, hMiddle⟩ := head_inj hTxid hTxid' hLine
    exact ⟨CString.ext hTxidEq, hMiddle, CString.ext hTypeEq, CString.ext hTimestampEq,
      CString.ext hSignatureEq, CString.ext hConfirmedEq⟩
  · rintro ⟨hTxid, hMiddle, hType, hTimestamp, hSignature, hConfirmed⟩
    simp only [terminated_append, hTxid, hMiddle, hType, hTimestamp, hSignature, hConfirmed]

/-! ## All lines -/

theorem chars_bundleOf_cons (row : PoolRow) (p : List PoolRow) : (bundleOf (row :: p)).chars =
    terminated commaByte row.texts ++ newlineByte :: (bundleOf p).chars := by
  change (poolLine row.columns).chars ++ (bundleOf p).chars = _
  rw [chars_poolLine, List.append_assoc]
  rfl

/-- The lines of the row in the bundle: a row whose columns hold newlines has more than one. -/
def PoolRow.lines (row : PoolRow) : List (List Byte) :=
  (terminated commaByte row.texts).splitOn newlineByte

/-- The rows of the two pools have the same lines one after the other. -/
def SameLines (p p' : List PoolRow) : Prop := p.flatMap PoolRow.lines = p'.flatMap PoolRow.lines

theorem chars_bundleOf (p : List PoolRow) :
    (bundleOf p).chars = terminated newlineByte (p.flatMap PoolRow.lines) := by
  induction p with
  | nil => rfl
  | cons row p ih =>
    rw [chars_bundleOf_cons, ih, List.flatMap_cons, terminated_append, PoolRow.lines,
      terminated_splitOn, List.append_assoc]
    rfl

theorem bundleOf_eq_iff_sameLines (p p' : List PoolRow) :
    bundleOf p = bundleOf p' ↔ SameLines p p' := by
  have hLines : ∀ (p : List PoolRow), ∀ line ∈ p.flatMap PoolRow.lines, newlineByte ∉ line := by
    intro p line hLine
    obtain ⟨row, _, hRow⟩ := List.mem_flatMap.mp hLine
    exact notMem_splitOn _ _ _ hRow
  constructor
  · intro hBundles
    have hChars := congrArg CString.chars hBundles
    rw [chars_bundleOf, chars_bundleOf] at hChars
    exact terminated_inj (hLines p) (hLines p') hChars
  · intro hSame
    apply CString.ext
    rw [chars_bundleOf, chars_bundleOf, hSame]

theorem head_bundleOf (h : ∀ row ∈ p, row.Signed) : (bundleOf p).chars.head? ≠ some commaByte := by
  cases p with
  | nil => nofun
  | cons row p =>
    have hRow := h row List.mem_cons_self
    have hLength : row.txid.chars.length = 96 := hRow.length_txid
    rw [chars_bundleOf_cons, texts_eq]
    cases hTxid : row.txid.chars with
    | nil => simp [hTxid] at hLength
    | cons b more =>
      have hDigit : b ∈ lowerHexDigits := hRow.txid b (hTxid ▸ List.mem_cons_self)
      simp only [List.cons_append, terminated_cons, List.head?_cons]
      rintro ⟨⟩
      exact separators_not_hex.1 hDigit

theorem bundleOf_cons_ne (row : PoolRow) (p : List PoolRow) : bundleOf (row :: p) ≠ bundleOf [] := by
  intro hBundles
  have hChars := congrArg CString.chars hBundles
  rw [chars_bundleOf_cons] at hChars
  simp [bundleOf, output, CString.empty] at hChars

theorem bundleOf_eq_iff (h : ∀ row ∈ p, row.Signed) (h' : ∀ row ∈ p', row.Signed) :
    bundleOf p = bundleOf p' ↔ List.Forall₂ PoolRow.Alike p p' := by
  induction p generalizing p' with
  | nil =>
    cases p' with
    | nil => exact ⟨fun _ => .nil, fun _ => rfl⟩
    | cons row' p' =>
      constructor
      · exact fun hBundles => absurd hBundles.symm (bundleOf_cons_ne row' p')
      · intro hAlike
        cases hAlike
  | cons row p ih =>
    cases p' with
    | nil =>
      constructor
      · exact fun hBundles => absurd hBundles (bundleOf_cons_ne row p)
      · intro hAlike
        cases hAlike
    | cons row' p' =>
      obtain ⟨hRow, hRest⟩ := List.forall_mem_cons.mp h
      obtain ⟨hRow', hRest'⟩ := List.forall_mem_cons.mp h'
      rw [List.forall₂_cons, ← ih hRest hRest', ← line_eq_iff hRow hRow']
      constructor
      · intro hBundles
        have hChars := congrArg CString.chars hBundles
        rw [chars_bundleOf_cons, chars_bundleOf_cons] at hChars
        obtain ⟨hLine, hMore⟩ := record_inj (by decide) hRow.newline_last hRow'.newline_last
          (head_bundleOf hRest) (head_bundleOf hRest') hChars
        exact ⟨hLine, CString.ext hMore⟩
      · rintro ⟨hLine, hMore⟩
        apply CString.ext
        rw [chars_bundleOf_cons, chars_bundleOf_cons, hLine, hMore]

/-! ## Pools without commas in their texts -/

structure PoolRow.Plain (row : PoolRow) : Prop where
  sender : commaByte ∉ row.sender.chars
  recipient : commaByte ∉ row.recipient.chars
  data : commaByte ∉ row.data.chars

theorem PoolRow.Alike.eq_of_plain (hAlike : row.Alike row') (h : row.Signed) (hPlain : row.Plain) :
    row = row' := by
  have hNumbers := h.numbers
  simp only [PoolRow.numbers, List.forall_mem_cons] at hNumbers
  obtain ⟨hAmount, hMiners, hMoonshot, _⟩ := hNumbers
  have hColumns : ∀ text ∈ row.middle, commaByte ∉ text := by
    simp only [PoolRow.middle, List.map_cons, List.map_nil, List.forall_mem_cons]
    exact ⟨hPlain.sender, hPlain.recipient, hAmount.1, hMiners.1, hMoonshot.1, hPlain.data, nofun⟩
  have hLength : row.middle.length = row'.middle.length := rfl
  have hMiddle := terminated_inj_of_length hColumns hLength hAlike.middle
  simp only [PoolRow.middle, List.map_cons, List.map_nil, List.cons.injEq] at hMiddle
  obtain ⟨hSender, hRecipient, hAmount, hMiners, hMoonshot, hData, _⟩ := hMiddle
  obtain ⟨hTxid, _, hType, hTimestamp, hSignature, hConfirmed⟩ := hAlike
  cases row
  cases row'
  simp only [PoolRow.mk.injEq]
  exact ⟨hTxid, CString.ext hSender, CString.ext hRecipient, CString.ext hAmount,
    CString.ext hMiners, CString.ext hMoonshot, CString.ext hData, hType, hTimestamp, hSignature,
    hConfirmed⟩

/-- A pool whose typed texts have no comma is the only one with its bundle. -/
theorem bundle_determines_plain (h : ∀ row ∈ p, row.Signed) (h' : ∀ row ∈ p', row.Signed)
    (hPlain : ∀ row ∈ p, row.Plain) (hBundles : bundleOf p = bundleOf p') : p = p' := by
  have hAlike := (bundleOf_eq_iff h h').mp hBundles
  clear hBundles h'
  induction hAlike with
  | nil => rfl
  | cons hRow _ ih =>
    obtain ⟨hFirst, hRest⟩ := List.forall_mem_cons.mp h
    obtain ⟨hFirstPlain, hRestPlain⟩ := List.forall_mem_cons.mp hPlain
    rw [hRow.eq_of_plain hFirst hFirstPlain, ih hRest hRestPlain]

/-! ## Blocks -/

theorem createBlock_onPool {sha384 : Hash} {sqlite : Sqlite} {call : Call} {rows : List Row}
    {b : Block} (hShort : Short rows)
    (h : createBlock sha384 sqlite (call.onPool (some p)) rows = some b) :
    (bundleOf p).length < 19999 ∧ b.transactionBundle = some (bundleOf p) ∧
      b.transactionCount = BitVec.ofNat 32 p.length := by
  obtain ⟨b₀, hNew, hHash⟩ := Option.bind_eq_some_iff.mp h
  obtain ⟨r, pool, hNewest, hPrepared⟩ := newBlock_prepared hNew
  obtain ⟨hBundle, hCount, _⟩ := hashBlock_keeps hHash
  have hText := hShort r (Sqlite.mem_of_newest hNewest)
  have hFits := hPrepared.fits
  rw [hPrepared.bundle (by omega)] at hBundle
  rw [hPrepared.transactionCount] at hCount
  rw [rows_of_onPool hPrepared.rows] at hFits hBundle hCount
  rw [List.length_map] at hCount
  exact ⟨hFits, hBundle, hCount⟩

theorem createBlock_bundle {sha384 : Hash} {sqlite : Sqlite} {call : Call} {rows : List Row}
    {b : Block} (hShort : Short rows)
    (h : createBlock sha384 sqlite (call.onPool (some p)) rows = some b) :
    b.transactionBundle = some (bundleOf p) := (createBlock_onPool hShort h).2.1

def bundledRow (sender recipient : CString) : PoolRow :=
  { aliceRow with sender := sender, recipient := recipient, signature := zerosText 4840 }

theorem mem_zerosText {n : Nat} {b : Byte} (hb : b ∈ (zerosText n).chars) : b ∈ lowerHexDigits := by
  rw [List.eq_of_mem_replicate hb]
  decide

theorem bundledRow_signed {sender recipient : CString} (hSender : newlineByte ∉ sender.chars)
    (hRecipient : newlineByte ∉ recipient.chars.dropLast) : (bundledRow sender recipient).Signed := by
  have hData : newlineByte ∉ aliceRow.data.chars.dropLast := by decide
  have hNumbers : ∀ text ∈ aliceRow.numbers,
      commaByte ∉ text.chars ∧ newlineByte ∉ text.chars := by decide
  exact ⟨fun _ => mem_zerosText, List.length_replicate, hSender, hRecipient, hData, hNumbers,
    fun _ => mem_zerosText⟩

def commaRow (first : Bool) : PoolRow :=
  if first then bundledRow (.ascii "a,b") (.ascii "c\n") else bundledRow (.ascii "a") (.ascii "b,c\n")

theorem commaRow_signed (first : Bool) : ∀ row ∈ [commaRow first], row.Signed := by
  intro row hRow
  rw [List.mem_singleton.mp hRow]
  cases first <;> exact bundledRow_signed (by decide) (by decide)

theorem exists_commaBlock (first : Bool) : ∃ b, createBlock lengthHash Sqlite.first
    ((callAt 1001).onPool (some [commaRow first])) [epochRow 1000] = some b := by
  apply exists_createBlock lengthHash
  · refine ⟨_, rfl, ?_⟩
    cases first <;> decide +kernel
  · exact Sqlite.first.newest_singleton _
  · decide

def onesRow : PoolRow := { aliceRow with txid := ⟨List.replicate 96 49, by decide⟩ }

/-- For a signature: the end of a row and the beginning of `onesRow`. -/
def hidingRow : PoolRow :=
  { aliceRow with
    signature := .ascii ",0,\n" ++ onesRow.txid ++
      .ascii ",alice,ob\n,1.0,1.0,1.0,ello\n,1,1000," }

example : bundleOf [hidingRow] = bundleOf [aliceRow, onesRow] := by decide +kernel

end Manhattan.Chain
