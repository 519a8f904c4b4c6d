import Manhattan.Nodes.Exchange
import Manhattan.Nodes.Table

/-! # Counting and reading the nodes

`main` of the latency program counts the rows of `nodes.db`, allocates an array of as many nodes and
then reads the rows into it, with a connection of its own for each query. In between the
node-discovery program may change the table.
-/

namespace Manhattan.Propagation

open Library.CStrings Library.KeyedTables Nodes

/-! ## nodes.db -/

inductive Change
  | insert (row : Row)
  | delete (which : Row → Bool)

def Change.apply (table : List Row) : Change → List Row
  | insert row => insertAbsent Row.key table row
  | delete which => table.filter fun row => !which row

def applyAll (changes : List Change) (table : List Row) : List Row := changes.foldl Change.apply table

/-- The rows of the table in the order in which a SELECT without ORDER BY gives them. Which order that
is, depends on the index that SQLite reads. -/
structure Selected (table : List Row) where
  rows : List Row
  perm : rows.Perm table

/-! ## get_node_count -/

structure CountCalls where
  opened : Bool
  prepared : Bool
  stepped : Bool

def CountCalls.succeed (calls : CountCalls) : Bool :=
  calls.opened && calls.prepared && calls.stepped

/-- Of the number of rows an `int` is kept. -/
def countRows (table : List Row) : Int := (BitVec.ofNat 32 table.length).toInt

/-- `*count` if 0 is returned -/
def getNodeCount (calls : CountCalls) (table : List Row) : Option Int :=
  if calls.succeed then some (countRows table) else none

/-! ## get_nodes -/

/-- `failsAfter` is the number of rows behind which `sqlite3_step` fails, if it does. -/
structure RowCalls where
  opened : Bool
  prepared : Bool
  failsAfter : Option Nat

/-- `sizeof(Node)`: `ip[16]`, `port`, `sockfd`, `status` -/
def nodeSize : Nat := 28

/-- `strcpy(nodes[i].ip, ip)` and `nodes[i].port = port`: offset in the array and bytes -/
def rowWrites (i : Nat) (row : Row) : List (Nat × List Byte) :=
  [(nodeSize * i, row.ip.chars ++ [0]),
    (nodeSize * i + 16, intBytes (columnInt (some row.port)).toNat)]

def fillWrites : Nat → List Row → List (Nat × List Byte)
  | _, [] => []
  | i, row :: rest => rowWrites i row ++ fillWrites (i + 1) rest

structure Fill where
  returned : Int
  writes : List (Nat × List Byte)

/-- `rows` are in the order of the SELECT. -/
def getNodes (calls : RowCalls) (rows : List Row) : Fill :=
  if !calls.opened then ⟨1, []⟩
  else if !calls.prepared then ⟨1, []⟩
  else
    match calls.failsAfter with
    | some n => ⟨1, fillWrites 0 (rows.take n)⟩
    | none => ⟨0, fillWrites 0 rows⟩

/-! ## Room for the rows -/

/-- All writes lie in the array of `count` nodes, and where 0 is returned every node has its ip and
its port. -/
structure LargeEnough (count : Nat) (fill : Fill) : Prop where
  inside : ∀ w ∈ fill.writes, w.1 + w.2.length ≤ nodeSize * count
  filled : fill.returned = 0 → ∀ i < count,
    ∃ ip port, (nodeSize * i, ip) ∈ fill.writes ∧ (nodeSize * i + 16, port) ∈ fill.writes

/-- `main` up to its first loop, on the table that is counted and the rows that the second query gives. -/
def ArrayLargeEnough (countCalls : CountCalls) (malloc : Bool) (rowCalls : RowCalls)
    (counted rows : List Row) : Prop :=
  ∀ count, getNodeCount countCalls counted = some count → malloc = true →
    LargeEnough count.toNat (getNodes rowCalls rows)

def RowCalls.read (calls : RowCalls) (rows : List Row) : List Row :=
  if calls.opened && calls.prepared then
    match calls.failsAfter with
    | some n => rows.take n
    | none => rows
  else []

def RowCalls.succeed (calls : RowCalls) : Bool :=
  calls.opened && calls.prepared && calls.failsAfter.isNone

/-- No more rows than nodes, as many if all are read, and no ip that runs over the end. -/
structure Fits (count : Nat) (calls : RowCalls) (rows : List Row) : Prop where
  nodes : (calls.read rows).length ≤ count
  texts : ∀ i row, (calls.read rows)[i]? = some row →
    nodeSize * i + row.ip.length < nodeSize * count
  all : calls.succeed = true → rows.length = count

theorem getNodes_eq (calls : RowCalls) (rows : List Row) : getNodes calls rows =
    ⟨if calls.succeed then 0 else 1, fillWrites 0 (calls.read rows)⟩ := by
  obtain ⟨opened, prepared, failsAfter⟩ := calls
  cases opened <;> cases prepared <;> cases failsAfter <;> rfl

theorem mem_fillWrites {w : Nat × List Byte} {rows : List Row} {start : Nat} :
    w ∈ fillWrites start rows ↔ ∃ i row, rows[i]? = some row ∧ w ∈ rowWrites (start + i) row := by
  induction rows generalizing start with
  | nil => simp [fillWrites]
  | cons first rest ih =>
    rw [fillWrites, List.mem_append, ih]
    constructor
    · rintro (hFirst | ⟨i, row, hRow, hWrite⟩)
      · exact ⟨0, first, rfl, hFirst⟩
      · refine ⟨i + 1, row, hRow, ?_⟩
        rwa [Nat.add_right_comm] at hWrite
    · rintro ⟨i, row, hRow, hWrite⟩
      cases i with
      | zero =>
        obtain rfl := Option.some.inj hRow
        exact .inl hWrite
      | succ i =>
        refine .inr ⟨i, row, hRow, ?_⟩
        rwa [Nat.add_right_comm]

theorem mem_rowWrites {w : Nat × List Byte} {i : Nat} {row : Row} :
    w ∈ rowWrites i row ↔ w = (nodeSize * i, row.ip.chars ++ [0]) ∨
      w = (nodeSize * i + 16, intBytes (columnInt (some row.port)).toNat) := by
  rw [rowWrites, List.mem_cons, List.mem_singleton]

theorem read_of_succeed {calls : RowCalls} (h : calls.succeed = true) (rows : List Row) :
    calls.read rows = rows := by
  obtain ⟨opened, prepared, failsAfter⟩ := calls
  simp only [RowCalls.succeed, Bool.and_eq_true, Option.isNone_iff_eq_none] at h
  obtain ⟨⟨rfl, rfl⟩, rfl⟩ := h
  rfl

theorem rows_le_of_texts {count : Nat} {rows : List Row} (h : ∀ i row, rows[i]? = some row →
    nodeSize * i + row.ip.length < nodeSize * count) : rows.length ≤ count := by
  by_contra hMore
  have hInside : count < rows.length := Nat.lt_of_not_le hMore
  have hRow := h count rows[count] (List.getElem?_eq_getElem hInside)
  omega

theorem largeEnough_iff (count : Nat) (calls : RowCalls) (rows : List Row) :
    LargeEnough count (getNodes calls rows) ↔ Fits count calls rows := by
  rw [getNodes_eq]
  constructor
  · rintro ⟨hInside, hFilled⟩
    have hTexts : ∀ i row, (calls.read rows)[i]? = some row →
        nodeSize * i + row.ip.length < nodeSize * count := by
      intro i row hRow
      have hWrite := hInside _ (mem_fillWrites.mpr ⟨i, row, hRow, mem_rowWrites.mpr (.inl rfl)⟩)
      rw [List.length_append, List.length_singleton, Nat.zero_add] at hWrite
      exact hWrite
    have hNodes := rows_le_of_texts hTexts
    refine ⟨hNodes, hTexts, ?_⟩
    intro hSucceed
    rw [read_of_succeed hSucceed] at hNodes hFilled
    refine Nat.le_antisymm hNodes ?_
    by_contra hFewer
    obtain ⟨ip, port, hIp, _⟩ := hFilled (if_pos hSucceed) rows.length (Nat.lt_of_not_le hFewer)
    -- no row has the index of the first node behind the rows
    obtain ⟨i, row, hRow, hWrite⟩ := mem_fillWrites.mp hIp
    have hIndex : i < rows.length := (List.getElem?_eq_some_iff.mp hRow).1
    obtain hSame | hSame := mem_rowWrites.mp hWrite
    · have hOffset := (Prod.mk.inj hSame).1
      simp only [nodeSize] at hOffset
      omega
    · have hOffset := (Prod.mk.inj hSame).1
      simp only [nodeSize] at hOffset
      omega
  · rintro ⟨hNodes, hTexts, hAll⟩
    refine ⟨?_, ?_⟩
    · intro w hw
      obtain ⟨i, row, hRow, hWrite⟩ := mem_fillWrites.mp hw
      have hIndex : i < (calls.read rows).length := (List.getElem?_eq_some_iff.mp hRow).1
      rw [Nat.zero_add] at hWrite
      obtain rfl | rfl := mem_rowWrites.mp hWrite
      · rw [List.length_append, List.length_singleton]
        exact hTexts i row hRow
      · rw [length_intBytes]
        simp only [nodeSize]
        omega
    · intro hReturned i hi
      have hSucceed : calls.succeed = true := by
        by_contra hFails
        rw [if_neg hFails] at hReturned
        cases hReturned
      rw [read_of_succeed hSucceed]
      rw [← hAll hSucceed] at hi
      have hRow : rows[i]? = some rows[i] := List.getElem?_eq_getElem hi
      have hMem : ∀ w ∈ rowWrites i rows[i], w ∈ fillWrites 0 rows := fun w hw =>
        mem_fillWrites.mpr ⟨i, rows[i], hRow, by rwa [Nat.zero_add]⟩
      exact ⟨_, _, hMem _ (mem_rowWrites.mpr (.inl rfl)), hMem _ (mem_rowWrites.mpr (.inr rfl))⟩

theorem mem_of_mem_read {calls : RowCalls} {rows : List Row} {row : Row}
    (h : row ∈ calls.read rows) : row ∈ rows := by
  unfold RowCalls.read at h
  split at h
  · split at h
    · exact List.mem_of_mem_take h
    · exact h
  · cases h

theorem length_read_of_perm {rows table : List Row} (h : rows.Perm table) (calls : RowCalls) :
    (calls.read rows).length = (calls.read table).length := by
  have hLength := h.length_eq
  unfold RowCalls.read
  split
  · split
    · rw [List.length_take, List.length_take, hLength]
    · exact hLength
  · rfl

/-- Where every text is shorter than a node, only the numbers of rows count. -/
theorem fits_iff_of_short {count : Nat} {calls : RowCalls} {table : List Row}
    (hShort : ∀ row ∈ table, row.ip.length < nodeSize) (selected : Selected table) :
    Fits count calls selected.rows ↔
      (calls.read table).length ≤ count ∧ (calls.succeed = true → table.length = count) := by
  rw [← length_read_of_perm selected.perm, ← selected.perm.length_eq]
  have hRead : ∀ row ∈ calls.read selected.rows, row ∈ table := fun row hRow =>
    selected.perm.mem_iff.mp (mem_of_mem_read hRow)
  constructor
  · intro h
    exact ⟨h.nodes, h.all⟩
  · rintro ⟨hNodes, hAll⟩
    refine ⟨hNodes, ?_, hAll⟩
    intro i row hRow
    have hIndex : i < (calls.read selected.rows).length := (List.getElem?_eq_some_iff.mp hRow).1
    have hLength := hShort row (hRead row (List.mem_of_getElem? hRow))
    simp only [nodeSize] at hLength ⊢
    omega

/-- Whatever happens to the table before the first query and between the two, and in whichever order
the second one gives the rows: the array is large enough if and only if that query finds what was
counted. -/
theorem arrayLargeEnough_iff (countCalls : CountCalls) (malloc : Bool) (rowCalls : RowCalls)
    (before between : List Change) (table : List Row)
    (selected : Selected (applyAll between (applyAll before table))) :
    (ArrayLargeEnough countCalls malloc rowCalls (applyAll before table) selected.rows ↔
      (countCalls.succeed = true → malloc = true →
        Fits (countRows (applyAll before table)).toNat rowCalls selected.rows)) ∧
    ((∀ row ∈ applyAll between (applyAll before table), row.ip.length < nodeSize) →
      (Fits (countRows (applyAll before table)).toNat rowCalls selected.rows ↔
        (rowCalls.read (applyAll between (applyAll before table))).length ≤
            (countRows (applyAll before table)).toNat ∧
          (rowCalls.succeed = true → (applyAll between (applyAll before table)).length =
            (countRows (applyAll before table)).toNat))) := by
  refine ⟨?_, fun hShort => fits_iff_of_short hShort selected⟩
  unfold ArrayLargeEnough
  constructor
  · intro h hCount hMalloc
    exact (largeEnough_iff ..).mp (h _ (if_pos hCount) hMalloc)
  · intro h count hCount hMalloc
    obtain ⟨hSucceed, hRows⟩ := Option.ite_none_right_eq_some.mp hCount
    obtain rfl := Option.some.inj hRows
    exact (largeEnough_iff ..).mpr (h hSucceed hMalloc)

def firstRow : Row := ⟨1, .ascii "10.0.0.1", 8080, none, none, none, none, none⟩

def secondRow : Row := ⟨2, .ascii "10.0.0.2", 8080, none, none, none, none, none⟩

/-- A node is discovered between the two queries. -/
theorem arrayLargeEnough_insert : ¬∃ selected :
      Selected (applyAll [.insert secondRow] (applyAll [.insert firstRow] [])),
    ArrayLargeEnough ⟨true, true, true⟩ true ⟨true, true, none⟩ (applyAll [.insert firstRow] [])
      selected.rows := by
  rintro ⟨selected, h⟩
  have hCount : getNodeCount ⟨true, true, true⟩ (applyAll [.insert firstRow] []) = some 1 := by
    decide +kernel
  have hFits := (largeEnough_iff ..).mp (h 1 hCount rfl)
  have hTwo : selected.rows.length = 2 := selected.perm.length_eq.trans (by decide +kernel)
  exact absurd (hTwo.symm.trans (hFits.all rfl)) (by decide)

end Manhattan.Propagation
