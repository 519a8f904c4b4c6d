import Manhattan.Nodes.Table

/-! # Addresses and the buffers they are copied to

`extract_ipv4` writes at most 15 characters, and `get_random_node` and `get_nodes` copy the
`ip` texts of the table to 16 bytes without a look at their length. The texts in the table fit
as long as those that peers have sent do.
-/

namespace Manhattan.Nodes

open Library.CStrings Library.KeyedTables

/-! ## extract_ipv4 -/

def groupLength (text : List Byte) : Option Nat :=
  let n := ((text.take 3).takeWhile isDigit).length
  if n = 0 then none else some n

/-- How much `[0-9]{1,3}\.` takes. A point is no digit, so there is only one way to match. -/
def dottedLength (text : List Byte) : Option Nat := do
  let n ← groupLength text
  if text[n]? = some 46 then some (n + 1) else none

/-- How much `([0-9]{1,3}\.){3}[0-9]{1,3}` takes, at the longest. -/
def matchLength (text : List Byte) : Option Nat := do
  let first ← dottedLength text
  let second ← dottedLength (text.drop first)
  let third ← dottedLength (text.drop (first + second))
  let last ← groupLength (text.drop (first + second + third))
  return first + second + third + last

/-- `rm_so` and `rm_eo` of the leftmost match -/
def regexec : List Byte → Option (Nat × Nat)
  | [] => none
  | b :: rest =>
    match matchLength (b :: rest) with
    | some n => some (0, n)
    | none => (regexec rest).map fun (so, eo) => (so + 1, eo + 1)

def extractIpv4 (str : CString) : Option CString := do
  let (so, eo) ← regexec str.chars
  return (str.drop so).take (eo - so)

/-- What `"%s"` prints for the address, or for the NULL that comes out without a match. -/
def printed (ip : Option CString) : CString := ip.getD (.ascii "(null)")

structure Numeric (limit : Nat) (text : List Byte) (n : Nat) : Prop where
  length : n ≤ limit
  chars : ∀ b ∈ text.take n, isDigit b = true ∨ b = 46

theorem Numeric.append {limit limit' : Nat} {text : List Byte} {n n' : Nat}
    (h : Numeric limit text n) (h' : Numeric limit' (text.drop n) n') :
    Numeric (limit + limit') text (n + n') where
  length := Nat.add_le_add h.length h'.length
  chars b hb := by
    rw [List.take_add] at hb
    rcases List.mem_append.mp hb with hFirst | hSecond
    · exact h.chars b hFirst
    · exact h'.chars b hSecond

theorem numeric_groupLength {text : List Byte} {n : Nat} (h : groupLength text = some n) :
    Numeric 3 text n := by
  have hPrefix := List.takeWhile_prefix isDigit (l := text.take 3)
  unfold groupLength at h
  simp only at h
  split at h
  · cases h
  · obtain rfl := Option.some.inj h
    have hLength : ((text.take 3).takeWhile isDigit).length ≤ 3 :=
      hPrefix.length_le.trans (List.length_take_le 3 text)
    refine ⟨hLength, ?_⟩
    intro b hb
    rw [← List.prefix_iff_eq_take.mp (hPrefix.trans (List.take_prefix 3 text))] at hb
    exact .inl (List.mem_takeWhile_imp hb)

theorem numeric_dottedLength {text : List Byte} {n : Nat} (h : dottedLength text = some n) :
    Numeric 4 text n := by
  obtain ⟨k, hGroup, hPoint⟩ := Option.bind_eq_some_iff.mp h
  split at hPoint
  · rename_i hByte
    obtain rfl := Option.some.inj hPoint
    refine (numeric_groupLength hGroup).append ⟨Nat.le_refl 1, ?_⟩
    intro b hb
    rw [List.take_one, List.head?_drop, hByte] at hb
    exact .inr (List.mem_singleton.mp hb)
  · cases hPoint

theorem numeric_matchLength {text : List Byte} {n : Nat} (h : matchLength text = some n) :
    Numeric 15 text n := by
  obtain ⟨first, hFirst, h⟩ := Option.bind_eq_some_iff.mp h
  obtain ⟨second, hSecond, h⟩ := Option.bind_eq_some_iff.mp h
  obtain ⟨third, hThird, h⟩ := Option.bind_eq_some_iff.mp h
  obtain ⟨last, hLast, h⟩ := Option.bind_eq_some_iff.mp h
  obtain rfl := Option.some.inj h
  exact (((numeric_dottedLength hFirst).append (numeric_dottedLength hSecond)).append
    (numeric_dottedLength hThird)).append (numeric_groupLength hLast)

theorem numeric_regexec {text : List Byte} {so eo : Nat} (h : regexec text = some (so, eo)) :
    Numeric 15 (text.drop so) (eo - so) := by
  induction text generalizing so eo with
  | nil => cases h
  | cons b rest ih =>
    rw [regexec] at h
    split at h
    · rename_i n hMatch
      cases h
      exact numeric_matchLength hMatch
    · obtain ⟨⟨so', eo'⟩, hRest, hPair⟩ := Option.map_eq_some_iff.mp h
      cases hPair
      rw [List.drop_succ_cons, Nat.add_sub_add_right]
      exact ih hRest

theorem extractIpv4_numeric {str ip : CString} (h : extractIpv4 str = some ip) :
    ip.length ≤ 15 ∧ ∀ b ∈ ip.chars, isDigit b = true ∨ b = 46 := by
  obtain ⟨⟨so, eo⟩, hMatch, hIp⟩ := Option.bind_eq_some_iff.mp h
  obtain rfl := Option.some.inj hIp
  obtain ⟨hLength, hChars⟩ := numeric_regexec hMatch
  exact ⟨(CString.length_take_le _ _).trans hLength, hChars⟩

theorem length_printed_le (str : CString) : (printed (extractIpv4 str)).length ≤ 15 := by
  cases h : extractIpv4 str with
  | none => decide
  | some ip => exact (extractIpv4_numeric h).1

theorem quote_not_mem_printed (str : CString) : 39 ∉ (printed (extractIpv4 str)).chars := by
  cases h : extractIpv4 str with
  | none => decide
  | some ip =>
    intro hQuote
    rcases (extractIpv4_numeric h).2 39 hQuote with hDigit | hPoint
    · exact absurd hDigit (by decide)
    · exact absurd hPoint (by decide)

example : extractIpv4 (.ascii "your ip is 1234.5.67.8910") = some (.ascii "234.5.67.891") := by
  decide +kernel

/-! ## The readers -/

structure RandomNode where
  id : BitVec 32
  ip : Region 16
  port : BitVec 32
  uptime : Double
  conecterror : BitVec 32
  exp1 : BitVec 32
  exp2 : BitVec 32
  exp3 : BitVec 32

/-- `get_random_node` with the row that SQLite picks and the 16 bytes that `malloc` returns.
Nothing comes out where `strcpy` writes behind them. -/
def getRandomNode (uninit : Region 16) (row : Row) : Option RandomNode := do
  let ip ← uninit.strcpy 0 row.ip
  return {
    id := columnInt (some row.id)
    ip := ip
    port := columnInt (some row.port)
    uptime := columnDouble row.uptime
    conecterror := columnInt row.conecterror
    exp1 := columnInt row.exp1
    exp2 := columnInt row.exp2
    exp3 := columnInt row.exp3 }

@[ext] structure Node where
  ip : Region 16
  port : BitVec 32
  sockfd : BitVec 32
  status : BitVec 32
  deriving DecidableEq

/-- The latency program's `get_nodes`, with the rows in the order of its SELECT -/
def getNodes : List Node → List Row → Option (List Node)
  | nodes, [] => some nodes
  | [], _ :: _ => none
  | node :: nodes, row :: rows => do
    let ip ← node.ip.strcpy 0 row.ip
    let rest ← getNodes nodes rows
    return { node with ip := ip, port := columnInt (some row.port) } :: rest

/-- The copies of the texts fit in 16 bytes with their NUL. -/
def Fits (rows : List Row) : Prop := ∀ row ∈ rows, row.ip.length ≤ 15

theorem exists_strcpy_ip (buffer : Region 16) {ip : CString} (h : ip.length ≤ 15) :
    ∃ buffer', buffer.strcpy 0 ip = some buffer' := buffer.exists_strcpy 0 ip (by omega)

theorem Fits.getRandomNode {rows : List Row} (h : Fits rows) (uninit : Region 16) {row : Row}
    (hRow : row ∈ rows) : ∃ node, Nodes.getRandomNode uninit row = some node := by
  obtain ⟨ip, hCopy⟩ := exists_strcpy_ip uninit (h row hRow)
  rw [Nodes.getRandomNode, hCopy]
  exact ⟨_, rfl⟩

theorem Fits.getNodes {rows : List Row} (h : Fits rows) {nodes : List Node}
    (hLength : rows.length ≤ nodes.length) : ∃ nodes', Nodes.getNodes nodes rows = some nodes' := by
  induction rows generalizing nodes with
  | nil => exact ⟨nodes, by rw [Nodes.getNodes]⟩
  | cons row rows ih =>
    cases nodes with
    | nil => cases hLength
    | cons node nodes =>
      obtain ⟨ip, hCopy⟩ := exists_strcpy_ip node.ip (h row List.mem_cons_self)
      obtain ⟨rest, hRest⟩ := ih (fun other hOther => h other (List.mem_cons_of_mem row hOther))
        (Nat.le_of_succ_le_succ hLength)
      rw [Nodes.getNodes, hCopy, hRest]
      exact ⟨_, rfl⟩

/-! ## Runs -/

def Operation.ReceivedFits : Operation → Prop
  | insertNode _ _ => True
  | processNodesDb received => Fits received
  | cutOff received count => Fits (received.take count)

theorem fits_iff_keys {rows : List Row} :
    Fits rows ↔ ∀ k ∈ keys Row.key rows, k.1.length ≤ 15 := by
  constructor
  · rintro h k ⟨row, hRow, rfl⟩
    exact h row hRow
  · intro h row hRow
    exact h row.key ⟨row, hRow, rfl⟩

def ExtractedInserts (operations : List Operation) : Prop :=
  ∀ ip port, .insertNode ip port ∈ operations → ∃ str, ip = printed (extractIpv4 str)

theorem ExtractedInserts.plain {operations : List Operation} (h : ExtractedInserts operations) :
    PlainInserts operations := by
  intro ip port hMem
  obtain ⟨str, rfl⟩ := h ip port hMem
  exact quote_not_mem_printed str

theorem receivedFits_iff {operations : List Operation} (h : ExtractedInserts operations)
    {operation : Operation} (hMem : operation ∈ operations) :
    operation.ReceivedFits ↔ ∀ k ∈ operation.written, k.1.length ≤ 15 := by
  cases operation with
  | insertNode ip port =>
    obtain ⟨str, rfl⟩ := h ip port hMem
    constructor
    · rintro _ k rfl
      exact length_printed_le str
    · intro _
      trivial
  | processNodesDb received | cutOff received count =>
    constructor
    · rintro hFits k ⟨row, hRow, rfl⟩
      exact hFits row hRow
    · intro hWritten row hRow
      exact hWritten row.read.key ⟨row, hRow, rfl⟩

/-- The texts of the table fit after any sequence of operations if and only if those of the
received rows do, and then no copy of them leaves its buffer. -/
theorem performAll_fits_iff (sqlite : Sqlite) (hExec : sqlite.ExecutesInsert)
    (operations : List Operation) (hExtracted : ExtractedInserts operations)
    (rows rows' : List Row) (hFits : Fits rows)
    (hRun : performAll sqlite operations rows = some rows') :
    (Fits rows' ∧ (∀ uninit, ∀ row ∈ rows', ∃ node, getRandomNode uninit row = some node) ∧
      ∀ nodes, rows'.length ≤ nodes.length → ∃ nodes', getNodes nodes rows' = some nodes') ↔
      ∀ operation ∈ operations, operation.ReceivedFits := by
  have hGrows := grows_performAll hExec hExtracted.plain hRun
  constructor
  · rintro ⟨hFits', _, _⟩ operation hMem
    apply (receivedFits_iff hExtracted hMem).mpr
    intro k hk
    apply fits_iff_keys.mp hFits'
    rw [hGrows.keys]
    exact .inr ⟨operation, hMem, hk⟩
  · intro hReceived
    have hFits' : Fits rows' := by
      apply fits_iff_keys.mpr
      intro k hk
      rw [hGrows.keys] at hk
      rcases hk with hOld | ⟨operation, hMem, hWritten⟩
      · exact fits_iff_keys.mp hFits k hOld
      · exact (receivedFits_iff hExtracted hMem).mp (hReceived operation hMem) k hWritten
    exact ⟨hFits', fun uninit row => hFits'.getRandomNode uninit, fun nodes => hFits'.getNodes⟩

/-- An address of 16 characters arrives from a peer, and its copy does not fit. -/
theorem merge_does_not_fit :
    let row := peerRow (.ascii "123.123.123.1234") 5000
    let rows' := (performAll .reference [.processNodesDb [row]] []).getD []
    ¬Fits rows' ∧ ∃ row' ∈ rows', getRandomNode ⟨List.replicate 16 0, rfl⟩ row' = none := by
  intro row rows'
  have hMem : { row.read with id := 1 } ∈ rows' := by decide +kernel
  refine ⟨?_, _, hMem, rfl⟩
  intro hFits
  exact absurd (hFits _ hMem) (by decide +kernel)

theorem performAll_fits_iff_localhost :
    let row := peerRow localhost 5000
    let operations : List Operation :=
      [.insertNode (printed (extractIpv4 (.ascii "1.2.3.4"))) 5001, .processNodesDb [row]]
    let rows' := (performAll .reference operations []).getD []
    (Fits rows' ∧ (∀ uninit, ∀ row ∈ rows', ∃ node, getRandomNode uninit row = some node) ∧
      ∀ nodes, rows'.length ≤ nodes.length → ∃ nodes', getNodes nodes rows' = some nodes') ↔
      ∀ operation ∈ operations, operation.ReceivedFits := by
  intro row operations rows'
  have hExtracted : ExtractedInserts operations := by
    intro ip port hMem
    simp only [operations, List.mem_cons, Operation.insertNode.injEq, reduceCtorEq, or_false,
      List.not_mem_nil] at hMem
    exact ⟨_, hMem.1⟩
  have hFits : Fits [] := by
    rintro row ⟨⟩
  have hRun : performAll .reference operations [] = some rows' := by decide +kernel
  exact performAll_fits_iff .reference executesInsert_reference operations hExtracted [] rows'
    hFits hRun

end Manhattan.Nodes
