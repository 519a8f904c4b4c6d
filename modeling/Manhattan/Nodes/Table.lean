import Manhattan.Library.CStrings
import Manhattan.Library.KeyedTables

/-! # The nodes table

`nodes.db` holds one table,

  nodes(id INTEGER PRIMARY KEY AUTOINCREMENT, ip TEXT NOT NULL, port INTEGER NOT NULL,
    uptime REAL, conecterror INTEGER, exp1 INTEGER, exp2 INTEGER, exp3 INTEGER,
    UNIQUE (ip, port)),

and two functions write to it: `insert_node`, and `process_nodes_db`, which merges the table
that a peer has sent. What SQLite does is a parameter where the code leaves the choice to it.
-/

namespace Manhattan.Nodes

open Library.CStrings Library.KeyedTables

abbrev Double := BitVec 64

/-- A row as it is stored; the columns that may be NULL are options. -/
structure Row where
  id : BitVec 64
  ip : CString
  port : BitVec 64
  uptime : Option Double
  conecterror : Option (BitVec 64)
  exp1 : Option (BitVec 64)
  exp2 : Option (BitVec 64)
  exp3 : Option (BitVec 64)
  deriving DecidableEq

abbrev Key := CString × BitVec 64

def Row.key (row : Row) : Key := (row.ip, row.port)

/-- `sqlite3_column_int`: NULL is 0, of an integer the low 32 bits count. -/
def columnInt (value : Option (BitVec 64)) : BitVec 32 := (value.getD 0).setWidth 32

def columnDouble (value : Option Double) : Double := value.getD 0

def bindInt (value : BitVec 32) : BitVec 64 := value.signExtend 64

/-- What the code leaves to SQLite: the `id` of a new row, and what a statement given as text
does to the table. -/
structure Sqlite where
  newId : List Row → BitVec 64
  exec : CString → List Row → List Row

/-- An insertion that ignores a conflict on `(ip, port)`. -/
def Sqlite.insert (sqlite : Sqlite) (rows : List Row) (row : Row) : List Row :=
  insertAbsent Row.key rows { row with id := sqlite.newId rows }

/-! ## process_nodes_db -/

def Row.read (row : Row) : Row where
  id := row.id
  ip := row.ip
  port := bindInt (columnInt (some row.port))
  uptime := some (columnDouble row.uptime)
  conecterror := some (bindInt (columnInt row.conecterror))
  exp1 := some (bindInt (columnInt row.exp1))
  exp2 := some (bindInt (columnInt row.exp2))
  exp3 := some (bindInt (columnInt row.exp3))

/-- `while(sqlite3_step(stmt) == SQLITE_ROW)`, with the rows of `nodes_.db` -/
def processNodesDb (sqlite : Sqlite) (received rows : List Row) : List Row :=
  received.foldl (fun rows row => sqlite.insert rows row.read) rows

/-! ## insert_node -/

def insertHead : CString := CString.ascii
  "INSERT OR IGNORE INTO nodes (ip, port, uptime, conecterror, exp1, exp2, exp3) VALUES ('"

def insertSql (ip : CString) (port : BitVec 32) : CString :=
  insertHead ++ ip ++ CString.ascii "', " ++ decimal port.toInt ++ CString.ascii ", 0, 0, 0, 0, 0)"

def newNode (ip : CString) (port : BitVec 32) : Row where
  id := 0
  ip := ip
  port := bindInt port
  uptime := some 0
  conecterror := some 0
  exp1 := some 0
  exp2 := some 0
  exp3 := some 0

/-- Nothing comes out where the statement does not fit `sql[256]`. -/
def insertNode (sqlite : Sqlite) (ip : CString) (port : BitVec 32) (rows : List Row) :
    Option (List Row) := do
  let sql ← sprintf 256 (insertSql ip port)
  return sqlite.exec sql rows

/-- The statement of `insert_node` does what it says for an address without a quote. -/
def Sqlite.ExecutesInsert (sqlite : Sqlite) : Prop :=
  ∀ ip port rows, 39 ∉ ip.chars →
    sqlite.exec (insertSql ip port) rows = sqlite.insert rows (newNode ip port)

/-! ## SQLite on the statements of insert_node -/

def nextId (rows : List Row) : BitVec 64 :=
  BitVec.ofNat 64 (rows.foldl (fun greatest row => max greatest row.id.toNat) 0 + 1)

def parseInsert (sql : CString) : CString × BitVec 32 :=
  let ip := (sql.drop insertHead.length).takeWhile (· ≠ 39)
  let rest := (sql.drop insertHead.length).drop (ip.length + 3)
  (ip, BitVec.ofInt 32 (readDecimal (rest.takeWhile (· ≠ 44)).chars))

/-- Statements of any other form are not executed. -/
def Sqlite.reference : Sqlite where
  newId := nextId
  exec sql rows :=
    let (ip, port) := parseInsert sql
    if sql = insertSql ip port then
      insertAbsent Row.key rows { newNode ip port with id := nextId rows }
    else rows

theorem parseInsert_insertSql {ip : CString} (hPlain : 39 ∉ ip.chars) (port : BitVec 32) :
    parseInsert (insertSql ip port) = (ip, port) := by
  let tail := decimal port.toInt ++ CString.ascii ", 0, 0, 0, 0, 0)"
  have hSql : insertSql ip port = insertHead ++ (ip ++ (.ascii "', " ++ tail)) := by
    simp only [insertSql, tail, CString.append_assoc]
  have hIp : (ip ++ (CString.ascii "', " ++ tail)).takeWhile (· ≠ 39) = ip :=
    CString.takeWhile_append (u := .ascii ", " ++ tail) hPlain rfl
  have hRest : (ip ++ (CString.ascii "', " ++ tail)).drop (ip.length + 3) = tail := by
    have hLength : (ip ++ CString.ascii "', ").length = ip.length + 3 := CString.length_append _ _
    rw [← CString.append_assoc, ← hLength]
    exact CString.drop_append _ _
  have hPort : tail.takeWhile (· ≠ 44) = decimal port.toInt :=
    CString.takeWhile_append (u := .ascii " 0, 0, 0, 0, 0)")
      (not_mem_decimal (by decide) (by decide)) rfl
  unfold parseInsert
  rw [hSql, CString.drop_append, hIp]
  simp only [hRest, hPort, readDecimal_decimal, BitVec.ofInt_toInt]

theorem executesInsert_reference : Sqlite.reference.ExecutesInsert := by
  intro ip port rows hPlain
  unfold Sqlite.reference
  dsimp only
  rw [parseInsert_insertSql hPlain, if_pos rfl]
  rfl

/-! ## Operations -/

/-- `cutOff received count` is a merge of `received` that ends after `count` rows. -/
inductive Operation
  | insertNode (ip : CString) (port : BitVec 32)
  | processNodesDb (received : List Row)
  | cutOff (received : List Row) (count : Nat)

def Operation.perform (sqlite : Sqlite) (rows : List Row) : Operation → Option (List Row)
  | insertNode ip port => Nodes.insertNode sqlite ip port rows
  | processNodesDb received => some (Nodes.processNodesDb sqlite received rows)
  | cutOff received count => some (Nodes.processNodesDb sqlite (received.take count) rows)

def performAll (sqlite : Sqlite) (operations : List Operation) (rows : List Row) :
    Option (List Row) := operations.foldlM (Operation.perform sqlite) rows

def Operation.written : Operation → Set Key
  | insertNode ip port => {(ip, bindInt port)}
  | processNodesDb received => {k | ∃ row ∈ received, row.read.key = k}
  | cutOff received count => {k | ∃ row ∈ received.take count, row.read.key = k}

variable {sqlite : Sqlite}

theorem grows_insert (rows : List Row) (row : Row) :
    Grows Row.key rows (sqlite.insert rows row) {row.key} := grows_insertAbsent rows _

theorem grows_processNodesDb (received rows : List Row) :
    Grows Row.key rows (processNodesDb sqlite received rows)
      {k | ∃ row ∈ received, row.read.key = k} := by
  have hSteps : ∀ (rows : List Row) (row : Row),
      Grows Row.key rows (sqlite.insert rows row.read) {row.read.key} :=
    fun rows row => grows_insert rows row.read
  apply (Grows.foldl hSteps received rows).congr
  simp [eq_comm]

theorem grows_insertNode (hExec : sqlite.ExecutesInsert) {ip : CString} {port : BitVec 32}
    (hPlain : 39 ∉ ip.chars) {rows rows' : List Row}
    (h : insertNode sqlite ip port rows = some rows') :
    Grows Row.key rows rows' {(ip, bindInt port)} := by
  obtain ⟨sql, hSql, hExecuted⟩ := Option.bind_eq_some_iff.mp h
  obtain rfl := Option.some.inj hExecuted
  rw [sprintf_eq_some hSql, hExec ip port rows hPlain]
  exact grows_insert rows (newNode ip port)

/-- No address inserted has a quote; none that `extract_ipv4` finds has one. -/
def PlainInserts (operations : List Operation) : Prop :=
  ∀ ip port, .insertNode ip port ∈ operations → 39 ∉ ip.chars

theorem grows_perform (hExec : sqlite.ExecutesInsert) {operations : List Operation}
    (hPlain : PlainInserts operations) {operation : Operation} (hMem : operation ∈ operations)
    {rows rows' : List Row} (h : operation.perform sqlite rows = some rows') :
    Grows Row.key rows rows' operation.written := by
  cases operation with
  | insertNode ip port => exact grows_insertNode hExec (hPlain ip port hMem) h
  | processNodesDb received =>
    obtain rfl := Option.some.inj h
    exact grows_processNodesDb received rows
  | cutOff received count =>
    obtain rfl := Option.some.inj h
    exact grows_processNodesDb (received.take count) rows

theorem grows_performAll (hExec : sqlite.ExecutesInsert) {operations : List Operation}
    (hPlain : PlainInserts operations) {rows rows' : List Row}
    (h : performAll sqlite operations rows = some rows') :
    Grows Row.key rows rows' {k | ∃ operation ∈ operations, k ∈ operation.written} :=
  Grows.foldlM operations (fun _ hMem _ _ => grows_perform hExec hPlain hMem) h

def Operation.RepeatedIn (after : List Operation) : Operation → Prop
  | cutOff received _ => processNodesDb received ∈ after
  | _ => True

/-- Every merge that is cut off is repeated in full later. -/
def Repeated : List Operation → Prop
  | [] => True
  | operation :: after => operation.RepeatedIn after ∧ Repeated after

theorem Repeated.mem {operations : List Operation} (h : Repeated operations) {table : List Row}
    {count : Nat} (hMem : .cutOff table count ∈ operations) :
    .processNodesDb table ∈ operations := by
  induction operations with
  | nil => cases hMem
  | cons operation after ih =>
    obtain ⟨hHere, hAfter⟩ := h
    rcases List.mem_cons.mp hMem with rfl | hLater
    · exact List.mem_cons_of_mem _ hHere
    · exact List.mem_cons_of_mem _ (ih hAfter hLater)

def inserted (operations : List Operation) : Set Key :=
  {k | ∃ ip port, .insertNode ip port ∈ operations ∧ (ip, bindInt port) = k}

/-- The keys of the rows received, whether or not the merge was cut off, with the port that
`sqlite3_column_int` reads. -/
def received (operations : List Operation) : Set Key :=
  {k | ∃ table, (.processNodesDb table ∈ operations ∨ ∃ count, .cutOff table count ∈ operations) ∧
    ∃ row ∈ table, row.read.key = k}

theorem written_eq_union {operations : List Operation} (h : Repeated operations) (k : Key) :
    (∃ operation ∈ operations, k ∈ operation.written) ↔
      k ∈ inserted operations ∪ received operations := by
  constructor
  · rintro ⟨operation, hMem, hWritten⟩
    cases operation with
    | insertNode ip port => exact .inl ⟨ip, port, hMem, hWritten.symm⟩
    | processNodesDb table => exact .inr ⟨table, .inl hMem, hWritten⟩
    | cutOff table count =>
      obtain ⟨row, hRow, hKey⟩ := hWritten
      exact .inr ⟨table, .inr ⟨count, hMem⟩, row, List.mem_of_mem_take hRow, hKey⟩
  · rintro (⟨ip, port, hMem, hKey⟩ | ⟨table, hMem | ⟨count, hMem⟩, hRow⟩)
    · exact ⟨_, hMem, hKey.symm⟩
    · exact ⟨_, hMem, hRow⟩
    · exact ⟨_, h.mem hMem, hRow⟩

/-- Whatever the order and the interruptions, the keys are united, none is there twice and the
rows that were there stay as they are. -/
theorem performAll_union (sqlite : Sqlite) (hExec : sqlite.ExecutesInsert)
    (operations : List Operation) (hPlain : PlainInserts operations)
    (hRepeated : Repeated operations) (rows rows' : List Row) (hUnique : Unique Row.key rows)
    (hRun : performAll sqlite operations rows = some rows') :
    keys Row.key rows' = keys Row.key rows ∪ (inserted operations ∪ received operations) ∧
    Unique Row.key rows' ∧ rows <+: rows' := by
  have hGrows := (grows_performAll hExec hPlain hRun).congr (written_eq_union hRepeated)
  exact ⟨hGrows.keys, hGrows.unique hUnique, hGrows.kept⟩

def localhost : CString := .ascii "127.0.0.1"

def peerRow (ip : CString) (port : BitVec 64) : Row := ⟨1, ip, port, none, none, none, none, none⟩

theorem performAll_union_cut :
    let table := [peerRow localhost 5000, peerRow localhost 5001]
    let operations : List Operation :=
      [.cutOff table 1, .insertNode localhost 5001, .processNodesDb table]
    let rows' := ((performAll .reference operations []).getD [])
    keys Row.key rows' = keys Row.key [] ∪ (inserted operations ∪ received operations) ∧
    Unique Row.key rows' ∧ [] <+: rows' := by
  intro table operations rows'
  have hPlain : PlainInserts operations := by
    intro ip port hMem
    simp only [operations, List.mem_cons, Operation.insertNode.injEq, reduceCtorEq, false_or,
      List.not_mem_nil, or_false] at hMem
    rw [hMem.1]
    decide
  have hRepeated : Repeated operations := by
    refine ⟨?_, trivial, trivial, trivial⟩
    exact List.mem_cons_of_mem _ List.mem_cons_self
  have hRun : performAll .reference operations [] = some rows' := by decide +kernel
  exact performAll_union .reference executesInsert_reference operations hPlain hRepeated [] rows'
    List.nodup_nil hRun

/-- A row with the port 2^32 + 80 is stored with the port 80. An address with a quote makes a statement
that SQLite does not execute, and one of 200 characters a statement that overruns its buffer. -/
theorem received_port_changed :
    let row := peerRow localhost (2 ^ 32 + 80)
    let rows' := (performAll .reference [.processNodesDb [row]] []).getD []
    (row.key ∉ keys Row.key rows' ∧ (localhost, 80) ∈ keys Row.key rows') ∧
      performAll .reference [.insertNode (.ascii "1'") 80] [] = some [] ∧
      performAll .reference [.insertNode ⟨List.replicate 200 49, by decide⟩ 80] [] = none := by
  intro row rows'
  rw [mem_keys_iff_mem_map, mem_keys_iff_mem_map]
  decide +kernel

end Manhattan.Nodes
