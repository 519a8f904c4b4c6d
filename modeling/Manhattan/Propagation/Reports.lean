import Manhattan.Propagation.Listening

/-! # What main prints for the nodes

The messages of all nodes are received into one array, which is never cleared, and printed from there
as a string. A line with a message comes only after the whole array was received from one node, so
that no byte of another node is in it.
-/

namespace Manhattan.Propagation

open Library.CStrings Library.FedLoops Nodes

/-- What comes from a node -/
structure Incoming where
  select : Select
  feed : Nat → Received

def receivedLine (text : CString) : CString :=
  .ascii "Received message from server: " ++ text ++ .ascii "\n"

/-- The line behind a call of `receive_message`; nothing is known of the memory behind the array, where
a string without a NUL goes on. -/
def report (returned : Int) (message : List Byte) : Option CString :=
  if returned = 0 then (scan message).map receivedLine
  else if returned = 2 then
    some (.ascii "Timeout occurred while waiting for message from server\n")
  else if returned = 3 then some (.ascii "Connection closed by server\n")
  else some (.ascii "Error receiving message from server\n")

/-- The loop that receives, from node `i` on: the lines for the nodes, and the nodes -/
def reportLoop (incoming : Nat → Incoming) :
    Nat → List Byte → List Node → Option (List (Nat × CString) × List Node)
  | _, _, [] => some ([], [])
  | i, message, node :: rest =>
    if node.status = 0 then do
      let (reports, nodes) ← reportLoop incoming (i + 1) message rest
      return (reports, node :: nodes)
    else do
      let (returned, t) ← node.receiveMessage (incoming i).select (incoming i).feed message 1024
      let line ← report returned t.message
      let (reports, nodes) ← reportLoop incoming (i + 1) t.message rest
      return ((i, line) :: reports, t.node :: nodes)

/-- `main` with what is printed for the nodes. The bytes that `message` starts with are an argument. -/
def mainReports (calls : MainCalls) (incoming : Nat → Incoming) (message : Region 1024)
    (memory : ∀ size, Region size) (first second : List Row) :
    Option (Int × List (Nat × CString)) := do
  match ← filledNodes calls memory first second with
  | none => return (1, [])
  | some nodes =>
    let (reports, _) ← reportLoop incoming 0 message.bytes (connectLoop calls.node 0 nodes).2
    return (0, reports)

/-! ## One node -/

def newNode : Node := ⟨.zeros 16, 0, 0, 1⟩

/-- The line for a node on an array of zeros -/
def Incoming.line (incoming : Incoming) : Option CString := do
  let (returned, t) ← newNode.receiveMessage incoming.select incoming.feed (Region.zeros 1024).bytes 1024
  report returned t.message

variable {node node' : Node} {messageLength : Nat} {incoming : Incoming}

/-- The same bytes have come, whatever the arrays held before. -/
structure Progress.Alike (messageLength : Nat) (s s' : Progress) : Prop where
  total : s'.total = s.total
  bound : s.total ≤ messageLength
  received : s'.message.take s.total = s.message.take s.total
  length : s.message.length = messageLength
  length' : s'.message.length = messageLength

/-- The same is returned, and where it is 0 the same message is there. -/
structure AlikeResults (messageLength : Nat) (r r' : Int × Progress) : Prop where
  returned : r'.1 = r.1
  message : r.1 = 0 → r'.2.message = r.2.message
  length : r.2.message.length = messageLength

theorem Progress.Alike.store {s s' : Progress} (h : s.Alike messageLength s') {piece : List Byte}
    (hPiece : s.total + piece.length ≤ messageLength) (log log' : List (Nat × List Byte)) :
    Progress.Alike messageLength
      ⟨Propagation.store s.message s.total piece, s.total + piece.length, s.node, log⟩
      ⟨Propagation.store s'.message s'.total piece, s'.total + piece.length, s'.node, log'⟩ := by
  obtain ⟨hTotal, hBound, hReceived, hLength, hLength'⟩ := h
  rw [hTotal]
  refine ⟨rfl, hPiece, ?_, ?_, ?_⟩
  · change (Propagation.store s'.message s.total piece).take (s.total + piece.length) = _
    rw [take_store (by omega), take_store (by omega), hReceived]
  · exact (length_store (by omega)).trans hLength
  · exact (length_store (by omega)).trans hLength'

theorem receiveTurn_alike (s s' : Progress) (received : Received)
    (h : s.Alike messageLength s') :
    Sum.LiftRel (Progress.Alike messageLength) (AlikeResults messageLength)
      (receiveTurn messageLength s received) (receiveTurn messageLength s' received) := by
  have hTotal := h.total
  unfold receiveTurn
  by_cases hMore : s.total < messageLength
  · rw [if_pos hMore, if_pos (by omega)]
    cases received with
    | failed => exact .inr ⟨rfl, nofun, h.length⟩
    | closed => exact .inr ⟨rfl, nofun, h.length⟩
    | bytes data hData =>
      rw [hTotal]
      refine .inl ?_
      have hPiece : s.total + (data.take (messageLength - s.total)).length ≤ messageLength := by
        rw [List.length_take]
        omega
      have hStored := h.store hPiece
        (s.log ++ [(s.total, data.take (messageLength - s.total))])
        (s'.log ++ [(s.total, data.take (messageLength - s.total))])
      rwa [hTotal] at hStored
  · rw [if_neg hMore, if_neg (by omega)]
    refine .inr ⟨rfl, ?_, h.length⟩
    intro _
    have hReceived := h.received
    have hBound := h.bound
    rwa [List.take_of_length_le (by rw [h.length']; omega),
      List.take_of_length_le (by rw [h.length]; omega)] at hReceived

/-- Whatever is in the array and in the node: the same is returned for the same input. -/
theorem receiveMessage_alike (node node' : Node) (select : Select) (feed : Nat → Received)
    (message message' : Region messageLength) :
    ∃ r r', node.receiveMessage select feed message.bytes messageLength = some r ∧
      node'.receiveMessage select feed message'.bytes messageLength = some r' ∧
      AlikeResults messageLength r r' := by
  cases select with
  | error => exact ⟨_, _, rfl, rfl, rfl, nofun, message.length_bytes⟩
  | timeout => exact ⟨_, _, rfl, rfl, rfl, nofun, message.length_bytes⟩
  | readable =>
    have hStart : (Progress.start message.bytes node).Alike messageLength
        (.start message'.bytes node') :=
      ⟨rfl, Nat.zero_le _, rfl, message.length_bytes, message'.length_bytes⟩
    have hRelated : Sum.LiftRel (Progress.Alike messageLength) (AlikeResults messageLength)
        (after (receiveTurn messageLength) feed (.start message.bytes node) (messageLength + 1))
        (after (receiveTurn messageLength) feed (.start message'.bytes node') (messageLength + 1)) :=
      after_related _ _ hStart receiveTurn_alike (messageLength + 1)
    obtain ⟨r, hEnd⟩ := @exists_result messageLength 0 feed message node
    rw [hEnd] at hRelated
    cases hEnd' : after (receiveTurn messageLength) feed (.start message'.bytes node')
        (messageLength + 1) with
    | inl s =>
      rw [hEnd'] at hRelated
      cases hRelated
    | inr r' =>
      rw [hEnd'] at hRelated
      cases hRelated with
      | inr hAlike =>
        refine ⟨r, r', ?_, ?_, hAlike⟩
        · rw [Node.receiveMessage, hEnd]
        · rw [Node.receiveMessage, hEnd']

theorem report_alike {r r' : Int × Progress} (h : AlikeResults messageLength r r') :
    report r'.1 r'.2.message = report r.1 r.2.message := by
  rw [h.returned]
  unfold report
  split
  · rw [h.message ‹_›]
  · rfl

/-! ## All nodes -/

def Event.received : Event → Option Nat
  | .receive i => some i
  | .connect _ _ | .send _ _ => none

def listened : Nat → List Node → List Nat
  | _, [] => []
  | i, node :: rest =>
    if node.status = 0 then listened (i + 1) rest else i :: listened (i + 1) rest

theorem receiveLoopEvents_eq (i : Nat) (nodes : List Node) :
    receiveLoopEvents i nodes = (listened i nodes).map .receive := by
  induction nodes generalizing i with
  | nil => rfl
  | cons node rest ih =>
    rw [receiveLoopEvents, listened, ih]
    split <;> rfl

theorem received_map (indices : List Nat) :
    (indices.map Event.receive).filterMap Event.received = indices := by
  rw [List.filterMap_map]
  exact List.filterMap_some

theorem received_connectLoop (calls : Nat → NodeCalls) (start : Nat) (nodes : List Node) :
    (connectLoop calls start nodes).1.filterMap Event.received = [] := by
  rw [List.filterMap_eq_nil_iff]
  intro event hEvent
  obtain ⟨i, ⟨returned, rfl⟩ | ⟨returned, rfl⟩⟩ := mem_connectLoop hEvent
  · rfl
  · rfl

def Incoming.entry (incoming : Nat → Incoming) (i : Nat) : Option (Nat × CString) :=
  (incoming i).line.map (Prod.mk i)

theorem reportLoop_eq (incoming : Nat → Incoming) (i : Nat) (message : Region 1024)
    (nodes : List Node) : (reportLoop incoming i message.bytes nodes).map Prod.fst =
      (listened i nodes).mapM (Incoming.entry incoming) := by
  induction nodes generalizing i message with
  | nil => rfl
  | cons node rest ih =>
    rw [reportLoop, listened]
    split
    · rw [← ih (i + 1) message]
      cases reportLoop incoming (i + 1) message.bytes rest <;> rfl
    · obtain ⟨⟨returned, t⟩, ⟨returned', t'⟩, hReceive, hOwn, hAlike⟩ :=
        receiveMessage_alike node newNode (incoming i).select (incoming i).feed message
          (.zeros 1024)
      have hLine : (incoming i).line = report returned t.message := by
        rw [Incoming.line, hOwn]
        exact report_alike hAlike
      have hRest := ih (i + 1) ⟨t.message, hAlike.length⟩
      rw [hReceive, List.mapM_cons, ← hRest, Incoming.entry, hLine]
      simp only [Option.bind_eq_bind, Option.bind_some]
      cases report returned t.message with
      | none => rfl
      | some line => cases reportLoop incoming (i + 1) t.message rest <;> rfl

/-! ## The text of a line -/

/-- The first 1024 bytes have come after `n` calls of `recv`. -/
structure Incoming.Fills (incoming : Incoming) (n : Nat) : Prop where
  readable : incoming.select = .readable
  pieces : ∀ i < n, (incoming.feed i).data ≠ []
  enough : 1024 ≤ (offered incoming.feed n).length

def fixedLines : List CString :=
  [.ascii "Timeout occurred while waiting for message from server\n",
    .ascii "Connection closed by server\n", .ascii "Error receiving message from server\n"]

theorem report_of_ne {returned : Int} (h : returned ≠ 0) (message : List Byte) :
    ∃ line ∈ fixedLines, report returned message = some line := by
  unfold report fixedLines
  rw [if_neg h]
  split_ifs
  · exact ⟨_, List.mem_cons_self, rfl⟩
  · exact ⟨_, List.mem_cons_of_mem _ List.mem_cons_self, rfl⟩
  · exact ⟨_, List.mem_cons_of_mem _ (List.mem_cons_of_mem _ List.mem_cons_self), rfl⟩

theorem offered_front (feed : Nat → Received) {k n : Nat} (h : k ≤ n) :
    offered feed k <+: offered feed n := by
  induction n, h using Nat.le_induction with
  | base => exact List.prefix_rfl
  | succ n _ ih =>
    rw [offered_succ]
    exact ih.trans (List.prefix_append _ _)

theorem take_offered {feed : Nat → Received} {k n : Nat} (hk : 1024 ≤ (offered feed k).length)
    (hn : 1024 ≤ (offered feed n).length) :
    (offered feed k).take 1024 = (offered feed n).take 1024 := by
  obtain h | h := Nat.le_total k n
  · obtain ⟨more, hMore⟩ := offered_front feed h
    rw [← hMore, List.take_append_of_le_length hk]
  · obtain ⟨more, hMore⟩ := offered_front feed h
    rw [← hMore, List.take_append_of_le_length hn]

theorem line_of_fills {incoming : Incoming} {n : Nat} (h : incoming.Fills n) :
    incoming.line = (scan ((offered incoming.feed n).take 1024)).map receivedLine := by
  obtain ⟨returned, t, k, hReceive, -, hPieces, hLeft, -⟩ :=
    @exists_received 1024 0 newNode incoming.feed (.zeros 1024)
  rw [← h.readable] at hReceive
  have hTotal := hLeft.holds.total
  rw [List.length_take] at hTotal
  have hReturned : returned = 0 := by
    by_contra hNonzero
    have hMissing := mt hLeft.full.mpr hNonzero
    have hBound := hLeft.holds.bound
    have hNone := hLeft.stopped hNonzero
    have hBefore : n ≤ k := by
      by_contra hLess
      exact h.pieces k (Nat.lt_of_not_le hLess) hNone
    have hMore := (offered_front incoming.feed hBefore).length_le
    have hEnough := h.enough
    omega
  subst hReturned
  have hFull := hLeft.full.mp rfl
  have hCame : 1024 ≤ (offered incoming.feed k).length := by omega
  have hMessage : t.message = (offered incoming.feed k).take 1024 := by
    rw [hLeft.holds.message, hFull, List.drop_of_length_le (Region.zeros 1024).length_bytes.le,
      List.append_nil]
  rw [Incoming.line, hReceive, ← take_offered hCame h.enough, ← hMessage]
  rfl

theorem line_of_not_fills {incoming : Incoming} (h : ∀ n, ¬incoming.Fills n) :
    ∃ line ∈ fixedLines, incoming.line = some line := by
  cases hSelect : incoming.select with
  | error =>
    rw [Incoming.line, hSelect]
    exact report_of_ne one_ne_zero (Region.zeros 1024).bytes
  | timeout =>
    rw [Incoming.line, hSelect]
    exact report_of_ne two_ne_zero (Region.zeros 1024).bytes
  | readable =>
    obtain ⟨returned, t, k, hReceive, -, hPieces, hLeft, -⟩ :=
      @exists_received 1024 0 newNode incoming.feed (.zeros 1024)
    rw [← hSelect] at hReceive
    have hNonzero : returned ≠ 0 := by
      intro hZero
      have hTotal := hLeft.holds.total
      rw [hLeft.full.mp hZero, List.length_take] at hTotal
      exact h k ⟨hSelect, hPieces, by omega⟩
    rw [Incoming.line, hReceive]
    exact report_of_ne hNonzero _

end Manhattan.Propagation
