import Manhattan.Propagation.NodeArray
import Manhattan.Propagation.Receiving

/-! # The nodes that main listens to

`main` connects to every node of the array and then receives from those whose `status` is not 0.
Nothing sets the `status` of a node that could not be connected to: it is what `malloc` gave.
-/

namespace Manhattan.Propagation

open Library.CStrings Nodes

/-! ## connect_to_server -/

/-- What `socket`, both `fcntl`, `inet_pton` and `connect` return, and whether `errno` is
EINPROGRESS. -/
structure ConnectCalls where
  socket : BitVec 32
  getFlags : Int
  setFlags : Int
  parsed : Int
  connected : Int
  inProgress : Bool

def Node.connectToServer (node : Node) (calls : ConnectCalls) : Int × Node :=
  let node := { node with sockfd := calls.socket }
  if calls.socket.toInt < 0 then (1, node)
  else if calls.getFlags < 0 then (1, node)
  else if calls.setFlags < 0 then (1, node)
  else if calls.parsed ≤ 0 then (1, node)
  else if calls.connected < 0 && !calls.inProgress then (1, node)
  else (0, { node with status := 1 })

def ConnectCalls.Succeed (calls : ConnectCalls) : Prop :=
  0 ≤ calls.socket.toInt ∧ 0 ≤ calls.getFlags ∧ 0 ≤ calls.setFlags ∧ 0 < calls.parsed ∧
    (0 ≤ calls.connected ∨ calls.inProgress = true)

instance (calls : ConnectCalls) : Decidable calls.Succeed := inferInstanceAs (Decidable (_ ∧ _))

/-- `sent` is what `send` returns. -/
structure NodeCalls where
  connect : ConnectCalls
  sent : Int

/-! ## main -/

inductive Event
  | connect (i : Nat) (returned : Int)
  | send (i : Nat) (returned : Int)
  | receive (i : Nat)
  deriving DecidableEq

/-- The loop that connects and sends, from node `i` on -/
def connectLoop (calls : Nat → NodeCalls) : Nat → List Node → List Event × List Node
  | _, [] => ([], [])
  | i, node :: rest =>
    let (returned, node) := node.connectToServer (calls i).connect
    let sends := if returned ≠ 0 then [] else [.send i (if (calls i).sent < 0 then 1 else 0)]
    let (events, nodes) := connectLoop calls (i + 1) rest
    (.connect i returned :: (sends ++ events), node :: nodes)

/-- The loop that receives. A message changes no node but the one that it comes from. -/
def receiveLoopEvents : Nat → List Node → List Event
  | _, [] => []
  | i, node :: rest =>
    if node.status = 0 then receiveLoopEvents (i + 1) rest
    else .receive i :: receiveLoopEvents (i + 1) rest

def field (bytes : List Byte) (offset size : Nat) : Region size where
  bytes := (List.range size).map fun k => bytes.getD (offset + k) 0
  length_bytes := by rw [List.length_map, List.length_range]

def nodeAt (bytes : List Byte) (i : Nat) : Node where
  ip := field bytes (nodeSize * i) 16
  port := readInt (field bytes (nodeSize * i + 16) 4).bytes
  sockfd := readInt (field bytes (nodeSize * i + 20) 4).bytes
  status := readInt (field bytes (nodeSize * i + 24) 4).bytes

def nodesOf (count : Nat) (bytes : List Byte) : List Node := (List.range count).map (nodeAt bytes)

def applyWrites {size : Nat} (array : Region size) (writes : List (Nat × List Byte)) :
    Option (Region size) :=
  writes.foldlM (fun array w =>
    if h : w.1 + w.2.length ≤ size then some (array.write w.1 w.2 h) else none) array

structure MainCalls where
  count : CountCalls
  malloc : Bool
  rows : RowCalls
  node : Nat → NodeCalls

/-- The nodes as get_nodes leaves them, if main does not return before, in memory that holds
`memory` when it is allocated. `first` is the table that is counted, `second` has the rows in the order
of the SELECT. Nothing comes out if a write leaves the array. -/
def filledNodes (calls : MainCalls) (memory : ∀ size, Region size) (first second : List Row) :
    Option (Option (List Node)) :=
  match getNodeCount calls.count first with
  | none => some none
  | some count =>
    if !calls.malloc then some none
    else do
      let fill := getNodes calls.rows second
      let array ← applyWrites (memory (nodeSize * count.toNat)) fill.writes
      if fill.returned ≠ 0 then return none
      return some (nodesOf count.toNat array.bytes)

/-- What is returned, and the calls for the nodes in their order. -/
def main (calls : MainCalls) (memory : ∀ size, Region size) (first second : List Row) :
    Option (Int × List Event) := do
  match ← filledNodes calls memory first second with
  | none => return (1, [])
  | some nodes =>
    let (events, nodes) := connectLoop calls.node 0 nodes
    return (0, events ++ receiveLoopEvents 0 nodes)

/-- Whatever is received, comes from a node that was connected to before. -/
def OnlyConnected (events : List Event) : Prop :=
  ∀ before behind i, events = before ++ .receive i :: behind → .connect i 0 ∈ before

/-! ## The loops -/

theorem connectToServer_eq (node : Node) (calls : ConnectCalls) : node.connectToServer calls =
    if calls.Succeed then (0, { node with sockfd := calls.socket, status := 1 })
    else (1, { node with sockfd := calls.socket }) := by
  unfold Node.connectToServer ConnectCalls.Succeed
  grind

theorem mem_receiveLoopEvents {event : Event} {start : Nat} {nodes : List Node} :
    event ∈ receiveLoopEvents start nodes ↔
      ∃ i node, nodes[i]? = some node ∧ node.status ≠ 0 ∧ event = .receive (start + i) := by
  induction nodes generalizing start with
  | nil => simp [receiveLoopEvents]
  | cons first rest ih =>
    have hShift : ∀ i, start + 1 + i = start + (i + 1) := fun i => by omega
    have hRest : (∃ i node, rest[i]? = some node ∧ node.status ≠ 0 ∧
        event = .receive (start + 1 + i)) ↔ ∃ i node, (first :: rest)[i + 1]? = some node ∧
          node.status ≠ 0 ∧ event = .receive (start + (i + 1)) := by
      simp only [hShift, List.getElem?_cons_succ]
    rw [receiveLoopEvents]
    split
    · rename_i hStatus
      rw [ih, hRest]
      constructor
      · rintro ⟨i, node, h⟩
        exact ⟨i + 1, node, h⟩
      · rintro ⟨i, node, hNode, hOn, hEvent⟩
        cases i with
        | zero =>
          obtain rfl := Option.some.inj hNode
          exact absurd hStatus hOn
        | succ i => exact ⟨i, node, hNode, hOn, hEvent⟩
    · rename_i hStatus
      rw [List.mem_cons, ih, hRest]
      constructor
      · rintro (rfl | ⟨i, node, h⟩)
        · exact ⟨0, first, rfl, hStatus, rfl⟩
        · exact ⟨i + 1, node, h⟩
      · rintro ⟨i, node, hNode, hOn, hEvent⟩
        cases i with
        | zero => exact .inl hEvent
        | succ i => exact .inr ⟨i, node, hNode, hOn, hEvent⟩

theorem connectLoop_nodes (calls : Nat → NodeCalls) (start : Nat) (nodes : List Node) (i : Nat) :
    (connectLoop calls start nodes).2[i]? =
      (nodes[i]?).map fun node => (node.connectToServer (calls (start + i)).connect).2 := by
  induction nodes generalizing start i with
  | nil => rfl
  | cons first rest ih =>
    cases i with
    | zero => rfl
    | succ i =>
      have hShift : start + 1 + i = start + (i + 1) := by omega
      rw [← hShift]
      exact ih (start + 1) i

def sends (calls : Nat → NodeCalls) (i : Nat) (node : Node) : List Event :=
  if (node.connectToServer (calls i).connect).1 ≠ 0 then []
  else [.send i (if (calls i).sent < 0 then 1 else 0)]

theorem connectLoop_events (calls : Nat → NodeCalls) (i : Nat) (node : Node) (rest : List Node) :
    (connectLoop calls i (node :: rest)).1 =
      .connect i (node.connectToServer (calls i).connect).1 ::
        (sends calls i node ++ (connectLoop calls (i + 1) rest).1) := rfl

theorem exists_of_mem_sends {calls : Nat → NodeCalls} {i : Nat} {node : Node} {event : Event}
    (h : event ∈ sends calls i node) : ∃ returned, event = .send i returned := by
  unfold sends at h
  split at h
  · cases h
  · exact ⟨_, List.mem_singleton.mp h⟩

theorem mem_connectLoop {calls : Nat → NodeCalls} {start : Nat} {nodes : List Node} {event : Event}
    (h : event ∈ (connectLoop calls start nodes).1) :
    ∃ i, (∃ returned, event = .connect i returned) ∨ ∃ returned, event = .send i returned := by
  induction nodes generalizing start with
  | nil => cases h
  | cons first rest ih =>
    rw [connectLoop_events, List.mem_cons, List.mem_append] at h
    obtain rfl | hSend | hRest := h
    · exact ⟨start, .inl ⟨_, rfl⟩⟩
    · exact ⟨start, .inr (exists_of_mem_sends hSend)⟩
    · exact ih hRest

theorem connect_mem_iff {calls : Nat → NodeCalls} {start j : Nat} {nodes : List Node}
    {returned : Int} : .connect j returned ∈ (connectLoop calls start nodes).1 ↔
      ∃ i node, nodes[i]? = some node ∧ j = start + i ∧
        returned = (node.connectToServer (calls j).connect).1 := by
  induction nodes generalizing start with
  | nil => simp [connectLoop]
  | cons first rest ih =>
    rw [connectLoop_events, List.mem_cons, List.mem_append, ih]
    constructor
    · rintro (hFirst | hSend | ⟨i, node, hNode, rfl, hReturned⟩)
      · obtain ⟨rfl, rfl⟩ := Event.connect.inj hFirst
        exact ⟨0, first, rfl, rfl, rfl⟩
      · obtain ⟨_, hSame⟩ := exists_of_mem_sends hSend
        cases hSame
      · exact ⟨i + 1, node, hNode, by omega, hReturned⟩
    · rintro ⟨i, node, hNode, rfl, rfl⟩
      cases i with
      | zero =>
        obtain rfl := Option.some.inj hNode
        exact .inl rfl
      | succ i => exact .inr (.inr ⟨i, node, hNode, by omega, rfl⟩)

/-! ## The whole run -/

/-- All that is received comes behind the loop that connects. -/
theorem onlyConnected_iff {front receives : List Event}
    (hFront : ∀ i, .receive i ∉ front) (hReceives : ∀ i r, .connect i r ∉ receives) :
    OnlyConnected (front ++ receives) ↔ ∀ i, .receive i ∈ receives → .connect i 0 ∈ front := by
  constructor
  · intro h i hReceive
    obtain ⟨first, rest, rfl⟩ := List.append_of_mem hReceive
    have hBefore := h (front ++ first) rest i (List.append_assoc ..).symm
    obtain hIn | hIn := List.mem_append.mp hBefore
    · exact hIn
    · exact absurd (List.mem_append_left _ hIn) (hReceives i 0)
  · rintro h before behind i hEvents
    obtain ⟨more, rfl, hRest⟩ | ⟨more, rfl, hRest⟩ := List.append_eq_append_iff.mp hEvents
    · refine List.mem_append_left _ (h i ?_)
      rw [hRest]
      exact List.mem_append_right _ List.mem_cons_self
    · cases more with
      | nil =>
        rw [List.append_nil] at hFront h
        refine h i ?_
        rw [← List.nil_append receives, ← hRest]
        exact List.mem_cons_self
      | cons event more =>
        obtain ⟨rfl, -⟩ := List.cons.inj hRest
        exact absurd (List.mem_append_right _ List.mem_cons_self) (hFront i)

theorem loops_iff (calls : Nat → NodeCalls) (nodes : List Node) :
    OnlyConnected ((connectLoop calls 0 nodes).1 ++
        receiveLoopEvents 0 (connectLoop calls 0 nodes).2) ↔
      ∀ i node, nodes[i]? = some node → (calls i).connect.Succeed ∨ node.status = 0 := by
  have hFront : ∀ i, .receive i ∉ (connectLoop calls 0 nodes).1 := by
    intro i h
    obtain ⟨_, ⟨_, hSame⟩ | ⟨_, hSame⟩⟩ := mem_connectLoop h <;> cases hSame
  have hReceives : ∀ i r, .connect i r ∉ receiveLoopEvents 0 (connectLoop calls 0 nodes).2 := by
    intro i r h
    obtain ⟨_, _, _, _, hSame⟩ := mem_receiveLoopEvents.mp h
    cases hSame
  rw [onlyConnected_iff hFront hReceives]
  constructor
  · intro h i node hNode
    by_cases hSucceed : (calls i).connect.Succeed
    · exact .inl hSucceed
    · right
      by_contra hStatus
      have hReceive : .receive i ∈ receiveLoopEvents 0 (connectLoop calls 0 nodes).2 := by
        refine mem_receiveLoopEvents.mpr
          ⟨i, (node.connectToServer (calls (0 + i)).connect).2, ?_, ?_, by rw [Nat.zero_add]⟩
        · rw [connectLoop_nodes, hNode, Option.map_some]
        · rw [Nat.zero_add, connectToServer_eq, if_neg hSucceed]
          exact hStatus
      obtain ⟨k, other, _, hIndex, hZero⟩ := connect_mem_iff.mp (h i hReceive)
      rw [connectToServer_eq, if_neg hSucceed] at hZero
      cases hZero
  · intro h i hReceive
    obtain ⟨k, left, hLeft, hOn, hEvent⟩ := mem_receiveLoopEvents.mp hReceive
    obtain rfl : i = k := by
      have hSame := Event.receive.inj hEvent
      omega
    rw [connectLoop_nodes, Nat.zero_add] at hLeft
    obtain ⟨node, hNode, rfl⟩ := Option.map_eq_some_iff.mp hLeft
    refine connect_mem_iff.mpr ⟨i, node, hNode, (Nat.zero_add i).symm, ?_⟩
    rw [connectToServer_eq] at hOn ⊢
    split
    · rfl
    · rename_i hFails
      rw [if_neg hFails] at hOn
      exact absurd ((h i node hNode).resolve_left hFails) hOn

/-! ## What get_nodes leaves -/

def writtenByte (p : Nat) (b : Byte) (w : Nat × List Byte) : Byte :=
  if w.1 ≤ p then w.2[p - w.1]?.getD b else b

theorem writtenByte_of_outside {p : Nat} {b : Byte} {w : Nat × List Byte}
    (h : p < w.1 ∨ w.1 + w.2.length ≤ p) : writtenByte p b w = b := by
  rw [writtenByte]
  split
  · rename_i hBehind
    rw [List.getElem?_eq_none (by omega), Option.getD_none]
  · rfl

theorem writtenByte_shift (o k : Nat) (b : Byte) (w : Nat × List Byte) :
    writtenByte (o + k) b (o + w.1, w.2) = writtenByte k b w := by
  unfold writtenByte
  rw [Nat.add_sub_add_left]
  simp only [Nat.add_le_add_iff_left]

theorem writtenByte_of_inside {k : Nat} {b : Byte} {w : Nat × List Byte} (h : k < w.2.length) :
    writtenByte (w.1 + k) b w = w.2.getD k 0 := by
  rw [writtenByte, if_pos (Nat.le_add_right ..), Nat.add_sub_cancel_left, List.getElem?_eq_getElem h,
    List.getD_eq_getElem _ _ h]
  rfl

theorem getD_write {size : Nat} (r : Region size) (w : Nat × List Byte)
    (h : w.1 + w.2.length ≤ size) (p : Nat) :
    (r.write w.1 w.2 h).bytes.getD p 0 = writtenByte p (r.bytes.getD p 0) w := by
  have hLength := r.length_bytes
  have hFront : (r.bytes.take w.1).length = w.1 := by
    rw [List.length_take]
    omega
  unfold Region.write writtenByte
  rw [List.getD_eq_getElem?_getD, List.getD_eq_getElem?_getD]
  split
  · rename_i hBehind
    rw [List.getElem?_append_right (by omega), hFront]
    by_cases hInside : p - w.1 < w.2.length
    · rw [List.getElem?_append_left hInside, List.getElem?_eq_getElem hInside]
      rfl
    · have hEnd : w.2.length ≤ p - w.1 := Nat.le_of_not_lt hInside
      rw [List.getElem?_append_right hEnd, List.getElem?_drop, List.getElem?_eq_none hEnd,
        Option.getD_none]
      congr 2
      omega
  · rename_i hBefore
    rw [List.getElem?_append_left (by omega), List.getElem?_take_of_lt (by omega)]

theorem getD_applyWrites {size : Nat} {writes : List (Nat × List Byte)} {r r' : Region size}
    (h : applyWrites r writes = some r') (p : Nat) :
    r'.bytes.getD p 0 = writes.foldl (writtenByte p) (r.bytes.getD p 0) := by
  induction writes generalizing r with
  | nil =>
    obtain rfl := Option.some.inj h
    rfl
  | cons w writes ih =>
    obtain ⟨first, hFirst, hRest⟩ := Option.bind_eq_some_iff.mp h
    obtain ⟨hInside, hWrite⟩ := Option.dite_none_right_eq_some.mp hFirst
    obtain rfl := Option.some.inj hWrite
    rw [ih hRest, getD_write, List.foldl_cons]

/-- The byte at `p` when the ip texts have been copied to their nodes, the first to node `i` -/
def leftByte (p : Nat) : Nat → List Row → Byte → Byte
  | _, [], b => b
  | i, row :: rest, b =>
    leftByte p (i + 1) rest (writtenByte p b (nodeSize * i, row.ip.chars ++ [0]))

theorem foldl_fillWrites {p : Nat} (hp : 20 ≤ p % nodeSize) (rows : List Row) (i : Nat) (b : Byte) :
    (fillWrites i rows).foldl (writtenByte p) b = leftByte p i rows b := by
  induction rows generalizing i b with
  | nil => rfl
  | cons row rest ih =>
    rw [fillWrites, List.foldl_append, ih, leftByte]
    congr 1
    refine writtenByte_of_outside ?_
    rw [length_intBytes]
    simp only [nodeSize] at hp ⊢
    omega

/-- No text that ends in front of its node's `status` comes to a `status`. -/
theorem leftByte_of_short {p : Nat} (hp : 24 ≤ p % nodeSize) {rows : List Row}
    (hShort : ∀ row ∈ rows, row.ip.length < 24) (i : Nat) (b : Byte) : leftByte p i rows b = b := by
  induction rows generalizing i b with
  | nil => rfl
  | cons row rest ih =>
    have hText : writtenByte p b (nodeSize * i, row.ip.chars ++ [0]) = b := by
      have hLength : row.ip.chars.length < 24 := hShort row List.mem_cons_self
      refine writtenByte_of_outside ?_
      rw [List.length_append, List.length_singleton]
      simp only [nodeSize] at hp ⊢
      omega
    rw [leftByte, hText]
    exact ih (fun other hOther => hShort other (List.mem_cons_of_mem row hOther)) (i + 1) b

/-- The four bytes of the `status` of node `i` are 0 behind `get_nodes`. -/
def StatusClear (memory : List Byte) (rows : List Row) (i : Nat) : Prop :=
  ∀ k < 4, leftByte (nodeSize * i + 24 + k) 0 rows (memory.getD (nodeSize * i + 24 + k) 0) = 0

theorem mod_nodeSize {i k : Nat} (hk : k < 4) : (nodeSize * i + 24 + k) % nodeSize = 24 + k := by
  simp only [nodeSize]
  omega

theorem statusClear_iff_of_short {memory : List Byte} {rows : List Row}
    (hShort : ∀ row ∈ rows, row.ip.length < 24) (i : Nat) : StatusClear memory rows i ↔
      ∀ k < 4, memory.getD (nodeSize * i + 24 + k) 0 = 0 := by
  refine forall₂_congr fun k hk => ?_
  rw [leftByte_of_short (by rw [mod_nodeSize hk]; omega) hShort]

theorem status_eq_zero_iff (bytes : List Byte) (i : Nat) :
    (nodeAt bytes i).status = 0 ↔ ∀ k < 4, bytes.getD (nodeSize * i + 24 + k) 0 = 0 := by
  have hZero : (nodeAt bytes i).status = 0 ↔
      (readInt (field bytes (nodeSize * i + 24) 4).bytes).toNat = 0 := BitVec.toNat_eq
  rw [hZero, toNat_readInt_eq_iff (Region.length_bytes _) (by decide)]
  have hBytes : intBytes 0 = (List.range 4).map fun _ => 0 := rfl
  rw [hBytes, field, List.map_inj_left]
  simp only [List.mem_range]

theorem status_filled_iff {size : Nat} {memory array : Region size} {rows : List Row}
    (h : applyWrites memory (fillWrites 0 rows) = some array) (i : Nat) :
    (nodeAt array.bytes i).status = 0 ↔ StatusClear memory.bytes rows i := by
  rw [status_eq_zero_iff]
  refine forall₂_congr fun k hk => ?_
  rw [getD_applyWrites h, foldl_fillWrites (by rw [mod_nodeSize hk]; omega)]

/-! ## The bytes and the nodes -/

theorem getD_field (bytes : List Byte) (offset : Nat) {size k : Nat} (h : k < size) :
    (field bytes offset size).bytes.getD k 0 = bytes.getD (offset + k) 0 := by
  rw [List.getD_eq_getElem?_getD, field, List.getElem?_map, List.getElem?_range h]
  rfl

theorem field_congr {bytes bytes' : List Byte} {offset size : Nat}
    (h : ∀ k < size, bytes.getD (offset + k) 0 = bytes'.getD (offset + k) 0) :
    field bytes offset size = field bytes' offset size := by
  refine Region.eq_of_getD fun k hk => ?_
  rw [getD_field _ _ hk, getD_field _ _ hk, h k hk]

/-- A node is read from its own bytes. -/
theorem nodeAt_congr {bytes bytes' : List Byte} {i : Nat}
    (h : ∀ k < nodeSize, bytes.getD (nodeSize * i + k) 0 = bytes'.getD (nodeSize * i + k) 0) :
    nodeAt bytes i = nodeAt bytes' i := by
  have hField : ∀ offset size, offset + size ≤ nodeSize →
      field bytes (nodeSize * i + offset) size = field bytes' (nodeSize * i + offset) size := by
    intro offset size hInside
    refine field_congr fun k hk => ?_
    rw [Nat.add_assoc]
    exact h (offset + k) (by omega)
  have hIp := hField 0 16 (by decide)
  unfold nodeAt
  rw [Nat.add_zero] at hIp
  rw [hIp, hField 16 4 (by decide), hField 20 4 (by decide), hField 24 4 (by decide)]

theorem getD_rowWrites {size : Nat} {array array' : Region size} {i : Nat} {row : Row}
    (h : applyWrites array (rowWrites i row) = some array') (p : Nat) : array'.bytes.getD p 0 =
      writtenByte p (writtenByte p (array.bytes.getD p 0) (nodeSize * i, row.ip.chars ++ [0]))
        (nodeSize * i + 16, intBytes (columnInt (some row.port)).toNat) := by
  rw [getD_applyWrites h]
  rfl

/-- What is written for row `i`, as long as its text fits in its own node. -/
theorem nodeAt_rowWrites {size : Nat} {array array' : Region size} {i : Nat} {row : Row}
    {ip : Region 16} (h : applyWrites array (rowWrites i row) = some array')
    (hCopy : (nodeAt array.bytes i).ip.strcpy 0 row.ip = some ip) :
    nodeAt array'.bytes i =
        { nodeAt array.bytes i with ip := ip, port := columnInt (some row.port) } ∧
      ∀ j ≠ i, nodeAt array'.bytes j = nodeAt array.bytes j := by
  obtain ⟨hFits, rfl⟩ := Region.strcpy_eq hCopy
  have hText : (row.ip.chars ++ [0]).length ≤ 16 := by rwa [Nat.zero_add] at hFits
  have hBytes := getD_rowWrites h
  have hPort := length_intBytes (columnInt (some row.port)).toNat
  -- the fields behind the port are in neither write
  have hBehind : ∀ offset, 20 ≤ offset → offset + 4 ≤ nodeSize →
      field array'.bytes (nodeSize * i + offset) 4 = field array.bytes (nodeSize * i + offset) 4 := by
    intro offset hFirst hLast
    refine field_congr fun k hk => ?_
    rw [hBytes, writtenByte_of_outside (.inr (by dsimp only; omega)),
      writtenByte_of_outside (.inr (by dsimp only; omega))]
  refine ⟨Node.ext ?_ ?_ ?_ ?_, ?_⟩
  · refine Region.eq_of_getD fun k hk => ?_
    change (field array'.bytes _ _).bytes.getD k 0 = (((field array.bytes _ _).write _ _ hFits).bytes).getD k 0
    rw [getD_write _ (0, row.ip.chars ++ [0]), getD_field _ _ hk, getD_field _ _ hk, hBytes,
      writtenByte_of_outside (.inl (by dsimp only; omega)), ← writtenByte_shift (nodeSize * i) k]
    rfl
  · apply BitVec.eq_of_toNat_eq
    refine (toNat_readInt_eq_iff (Region.length_bytes _) (BitVec.isLt _)).mpr ?_
    have hField : field array'.bytes (nodeSize * i + 16) 4 = ⟨_, hPort⟩ := by
      refine Region.eq_of_getD fun k hk => ?_
      rw [getD_field _ _ hk, hBytes]
      exact writtenByte_of_inside (w := (nodeSize * i + 16, _)) (hPort.symm ▸ hk)
    exact congrArg Region.bytes hField
  · exact congrArg (fun f => readInt (Region.bytes f)) (hBehind 20 (by decide) (by decide))
  · exact congrArg (fun f => readInt (Region.bytes f)) (hBehind 24 (by decide) (by decide))
  · intro j hj
    refine nodeAt_congr fun k hk => ?_
    rw [hBytes, writtenByte_of_outside, writtenByte_of_outside]
    · dsimp only [nodeSize] at *
      omega
    · dsimp only [nodeSize] at *
      omega

theorem applyWrites_append {size : Nat} (array : Region size) (writes more : List (Nat × List Byte)) :
    applyWrites array (writes ++ more) =
      (applyWrites array writes).bind fun array' => applyWrites array' more :=
  List.foldlM_append

theorem exists_applyWrites {size : Nat} {writes : List (Nat × List Byte)}
    (h : ∀ w ∈ writes, w.1 + w.2.length ≤ size) (array : Region size) :
    ∃ array', applyWrites array writes = some array' := by
  induction writes generalizing array with
  | nil => exact ⟨array, rfl⟩
  | cons w writes ih =>
    obtain ⟨array', hRest⟩ := ih (fun other hOther => h other (List.mem_cons_of_mem w hOther))
      (array.write w.1 w.2 (h w List.mem_cons_self))
    refine ⟨array', ?_⟩
    rw [applyWrites, List.foldlM_cons, dif_pos (h w List.mem_cons_self)]
    exact hRest

/-- A row whose text fits in node `i` is written inside the array. -/
theorem exists_applyWrites_row {count i : Nat} (array : Region (nodeSize * count)) {row : Row}
    (hi : i < count) (hText : row.ip.length ≤ 15) :
    ∃ array', applyWrites array (rowWrites i row) = some array' := by
  have hNode : nodeSize * (i + 1) ≤ nodeSize * count := Nat.mul_le_mul_left nodeSize hi
  refine exists_applyWrites (fun w hw => ?_) array
  rw [Nat.mul_add] at hNode
  obtain rfl | rfl := mem_rowWrites.mp hw
  · have hIp : (row.ip.chars ++ [0]).length = row.ip.length + 1 := List.length_append
    rw [hIp]
    simp only [nodeSize] at hNode ⊢
    omega
  · rw [length_intBytes]
    simp only [nodeSize] at hNode ⊢
    omega

theorem fillWrites_nodes {count : Nat} {rows : List Row} {i n : Nat} (hi : i + n = count)
    (array : Region (nodeSize * count)) {nodes : List Node}
    (h : Nodes.getNodes ((List.range' i n).map (nodeAt array.bytes)) rows = some nodes) :
    ∃ array', applyWrites array (fillWrites i rows) = some array' ∧
      (List.range' i n).map (nodeAt array'.bytes) = nodes ∧
      ∀ j < i, nodeAt array'.bytes j = nodeAt array.bytes j := by
  induction rows generalizing i n array nodes with
  | nil =>
    rw [Nodes.getNodes] at h
    exact ⟨array, rfl, Option.some.inj h, fun _ _ => rfl⟩
  | cons row rest ih =>
    cases n with
    | zero => cases h
    | succ n =>
      rw [List.range'_succ, List.map_cons, Nodes.getNodes] at h
      obtain ⟨ip, hCopy, hRest⟩ := Option.bind_eq_some_iff.mp h
      obtain ⟨behind, hBehind, hNodes⟩ := Option.bind_eq_some_iff.mp hRest
      obtain rfl := Option.some.inj hNodes
      have hText : row.ip.length ≤ 15 := by
        obtain ⟨hFits, -⟩ := Region.strcpy_eq hCopy
        rw [List.length_append, List.length_singleton] at hFits
        change row.ip.chars.length ≤ 15
        omega
      obtain ⟨first, hFirst⟩ := exists_applyWrites_row array (i := i) (by omega) hText
      obtain ⟨hNode, hOthers⟩ := nodeAt_rowWrites hFirst hCopy
      have hLater : (List.range' (i + 1) n).map (nodeAt first.bytes) =
          (List.range' (i + 1) n).map (nodeAt array.bytes) := by
        refine List.map_congr_left fun j hj => hOthers j ?_
        have hAfter := (List.mem_range'_1.mp hj).1
        omega
      obtain ⟨array', hArray, hFilled, hKept⟩ := ih (by omega) first (hLater.symm ▸ hBehind)
      refine ⟨array', ?_, ?_, ?_⟩
      · rw [fillWrites, applyWrites_append, hFirst]
        exact hArray
      · rw [List.range'_succ, List.map_cons, hFilled, hKept i (Nat.lt_succ_self i), hNode]
      · intro j hj
        rw [hKept j (by omega), hOthers j (by omega)]

/-- As long as every text fits in its own node, the bytes that `get_nodes` writes are the nodes that
it fills. -/
theorem nodesOf_fillWrites {count : Nat} (array : Region (nodeSize * count)) {rows : List Row}
    {nodes : List Node} (h : Nodes.getNodes (nodesOf count array.bytes) rows = some nodes) :
    ∃ array', applyWrites array (fillWrites 0 rows) = some array' ∧
      nodesOf count array'.bytes = nodes := by
  rw [nodesOf, List.range_eq_range'] at h
  obtain ⟨array', hArray, hFilled, -⟩ := fillWrites_nodes (Nat.zero_add count) array h
  refine ⟨array', hArray, ?_⟩
  rw [nodesOf, List.range_eq_range', hFilled]

/-! ## main -/

def MainCalls.reachLoops (calls : MainCalls) : Bool :=
  calls.count.succeed && calls.malloc && calls.rows.succeed

theorem filledNodes_cases {calls : MainCalls} {memory : ∀ size, Region size}
    {first second : List Row} {filled : Option (List Node)}
    (h : filledNodes calls memory first second = some filled) :
    calls.reachLoops = false ∧ filled = none ∨ calls.reachLoops = true ∧
      ∃ array, applyWrites (memory (nodeSize * (countRows first).toNat)) (fillWrites 0 second) =
          some array ∧ filled = some (nodesOf (countRows first).toNat array.bytes) := by
  obtain ⟨count, malloc, rows, node⟩ := calls
  unfold filledNodes getNodeCount at h
  unfold MainCalls.reachLoops
  cases hCount : count.succeed with
  | false =>
    rw [hCount] at h
    exact .inl ⟨rfl, (Option.some.inj h).symm⟩
  | true =>
    cases malloc with
    | false =>
      rw [hCount] at h
      exact .inl ⟨rfl, (Option.some.inj h).symm⟩
    | true =>
      rw [hCount, getNodes_eq] at h
      obtain ⟨array, hArray, hReturn⟩ := Option.bind_eq_some_iff.mp h
      cases hRows : rows.succeed with
      | false =>
        rw [hRows] at hReturn
        exact .inl ⟨rfl, (Option.some.inj hReturn).symm⟩
      | true =>
        rw [hRows] at hReturn
        rw [read_of_succeed hRows] at hArray
        exact .inr ⟨rfl, array, hArray, (Option.some.inj hReturn).symm⟩

/-- `main` goes on with the nodes as `get_nodes` fills them where no text leaves its node. -/
theorem filledNodes_eq {calls : MainCalls} {memory : ∀ size, Region size} {first second : List Row}
    {nodes : List Node} (hReach : calls.reachLoops = true)
    (h : Nodes.getNodes (nodesOf (countRows first).toNat
      (memory (nodeSize * (countRows first).toNat)).bytes) second = some nodes) :
    filledNodes calls memory first second = some (some nodes) := by
  obtain ⟨array, hArray, hNodes⟩ := nodesOf_fillWrites _ h
  simp only [MainCalls.reachLoops, Bool.and_eq_true] at hReach
  obtain ⟨⟨hCount, hMalloc⟩, hRows⟩ := hReach
  rw [filledNodes, getNodeCount, if_pos hCount]
  simp only [hMalloc, getNodes_eq, hRows, read_of_succeed, hArray, ← hNodes]
  rfl

theorem nodesOf_getElem? {count : Nat} {bytes : List Byte} {i : Nat} {node : Node} :
    (nodesOf count bytes)[i]? = some node ↔ i < count ∧ nodeAt bytes i = node := by
  rw [nodesOf, List.getElem?_map, Option.map_eq_some_iff]
  constructor
  · rintro ⟨j, hIndex, rfl⟩
    obtain ⟨hInside, hSame⟩ := List.getElem?_eq_some_iff.mp hIndex
    rw [List.getElem_range] at hSame
    rw [List.length_range] at hInside
    subst hSame
    exact ⟨hInside, rfl⟩
  · rintro ⟨hInside, rfl⟩
    exact ⟨i, List.getElem?_range hInside, rfl⟩

/-- `main` receives from connected nodes alone if and only if every other node's `status` happens to
be 0. -/
theorem onlyConnected_main_iff (calls : MainCalls) (memory : ∀ size, Region size)
    (first second : List Row) (returned : Int) (events : List Event)
    (h : main calls memory first second = some (returned, events)) :
    OnlyConnected events ↔ (calls.reachLoops = true → ∀ i < (countRows first).toNat,
      (calls.node i).connect.Succeed ∨
        StatusClear (memory (nodeSize * (countRows first).toNat)).bytes second i) := by
  obtain ⟨filled, hFilled, hLoops⟩ := Option.bind_eq_some_iff.mp h
  obtain ⟨hReach, rfl⟩ | ⟨hReach, array, hArray, rfl⟩ := filledNodes_cases hFilled
  · obtain ⟨-, rfl⟩ := Prod.mk.inj (Option.some.inj hLoops)
    rw [hReach]
    constructor
    · nofun
    · rintro - before behind i hNone
      exact absurd hNone.symm (by simp)
  · obtain ⟨-, rfl⟩ := Prod.mk.inj (Option.some.inj hLoops)
    rw [loops_iff]
    constructor
    · intro hAll _ i hi
      rw [← status_filled_iff hArray]
      exact hAll i _ (nodesOf_getElem?.mpr ⟨hi, rfl⟩)
    · rintro hAll i node hNode
      obtain ⟨hi, rfl⟩ := nodesOf_getElem?.mp hNode
      rw [status_filled_iff hArray]
      exact hAll hReach i hi

def withoutSocket : MainCalls where
  count := ⟨true, true, true⟩
  malloc := true
  rows := ⟨true, true, none⟩
  node _ := ⟨⟨-1, 0, 0, 1, 0, false⟩, 0⟩

def ones (size : Nat) : Region size := ⟨List.replicate size 1, List.length_replicate⟩

theorem onlyConnected_main_zeros :
    main withoutSocket .zeros [firstRow] [firstRow] = some (0, [.connect 0 1]) ∧
      (OnlyConnected [.connect 0 1] ↔ (withoutSocket.reachLoops = true → ∀ i < 1,
        (withoutSocket.node i).connect.Succeed ∨
          StatusClear (Region.zeros 28).bytes [firstRow] i)) := by
  have hRun : main withoutSocket .zeros [firstRow] [firstRow] = some (0, [.connect 0 1]) := by
    decide +kernel
  exact ⟨hRun, onlyConnected_main_iff _ _ _ _ _ _ hRun⟩

/-- There is no socket at all, and `main` receives from the node. -/
theorem not_onlyConnected_main_ones : ¬∀ returned events,
    main withoutSocket ones [firstRow] [firstRow] = some (returned, events) →
      OnlyConnected events := by
  intro h
  have hBefore := h 0 [.connect 0 1, .receive 0] (by decide +kernel) [.connect 0 1] [] 0 rfl
  exact absurd hBefore (by decide)

end Manhattan.Propagation
