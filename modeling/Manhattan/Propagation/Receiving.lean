import Manhattan.Library.FedLoops
import Manhattan.Nodes.Addresses

/-! # receive_message, whatever comes

Here `select` and every call of `recv` may do anything: each `recv` fails, tells that the peer has
closed, or brings some bytes, of which it takes no more than it was asked for.
-/

namespace Manhattan.Propagation

open Library.CStrings Library.FedLoops

inductive Select
  | error
  | timeout
  | readable

abbrev Node := Nodes.Node

inductive Received
  | failed
  | closed
  | bytes (data : List Byte) (nonempty : data ≠ [])

def Received.data : Received → List Byte
  | failed => []
  | closed => []
  | bytes data _ => data

/-- `recv` to `message + total_bytes_received` -/
def store (buffer : List Byte) (total : Nat) (bytes : List Byte) : List Byte :=
  buffer.take total ++ (bytes ++ buffer.drop (total + bytes.length))

theorem length_store {buffer bytes : List Byte} {total : Nat}
    (h : total + bytes.length ≤ buffer.length) : (store buffer total bytes).length = buffer.length := by
  simp only [store, List.length_append, List.length_take, List.length_drop]
  omega

theorem take_store {buffer bytes : List Byte} {total : Nat}
    (h : total + bytes.length ≤ buffer.length) :
    (store buffer total bytes).take (total + bytes.length) = buffer.take total ++ bytes := by
  have hTotal : (buffer.take total).length = total := List.length_take_of_le (by omega)
  rw [store, ← List.append_assoc, List.take_append_of_le_length]
  · exact List.take_of_length_le (by rw [List.length_append, hTotal])
  · rw [List.length_append, hTotal]

/-- `log` has the offset and the bytes of each write to `message`. -/
structure Progress where
  message : List Byte
  total : Nat
  node : Node
  log : List (Nat × List Byte)

/-- `while (total_bytes_received < message_length)` -/
def receiveTurn (messageLength : Nat) (s : Progress) (received : Received) :
    Progress ⊕ Int × Progress :=
  if s.total < messageLength then
    match received with
    | .failed => .inr (1, s)
    | .closed => .inr (3, { s with node := { s.node with status := 0 } })
    | .bytes data _ =>
      let piece := data.take (messageLength - s.total)
      .inl { s with
        message := store s.message s.total piece
        total := s.total + piece.length
        log := s.log ++ [(s.total, piece)] }
  else .inr (0, s)

def Progress.start (message : List Byte) (node : Node) : Progress := ⟨message, 0, node, []⟩

/-- What is returned and what is left. Each turn that goes on receives a byte at least. -/
def Node.receiveMessage (node : Node) (select : Select) (feed : Nat → Received)
    (message : List Byte) (messageLength : Nat) : Option (Int × Progress) :=
  match select with
  | .error => some (1, .start message node)
  | .timeout => some (2, .start message node)
  | .readable =>
    match after (receiveTurn messageLength) feed (.start message node) (messageLength + 1) with
    | .inl _ => none
    | .inr result => some result

def offered (feed : Nat → Received) (n : Nat) : List Byte :=
  (List.range n).flatMap fun i => (feed i).data

/-- Turn `n` of the loop gives the result; the call does not come to the loop where `select` does not
find the socket readable. -/
def EndsIn (select : Select) (feed : Nat → Received) (message : List Byte) (messageLength : Nat)
    (node : Node) (n : Nat) (result : Int × Progress) : Prop :=
  match select with
  | .readable => ∃ s, after (receiveTurn messageLength) feed (.start message node) n = .inl s ∧
      receiveTurn messageLength s (feed n) = .inr result
  | _ => n = 0 ∧ result.2 = .start message node

/-- The peer closes before the message is complete. -/
def PeerCloses (select : Select) (feed : Nat → Received) (messageLength : Nat) : Prop :=
  select = .readable ∧ ∃ n, feed n = .closed ∧ (∀ i < n, (feed i).data ≠ []) ∧
    (offered feed n).length < messageLength

theorem offered_succ (feed : Nat → Received) (n : Nat) :
    offered feed (n + 1) = offered feed n ++ (feed n).data := by
  rw [offered, List.range_succ, List.flatMap_append, List.flatMap_singleton, offered]

/-! ## Every turn -/

variable {messageLength extra n : Nat} {select : Select} {feed : Nat → Received}
  {message : Region (messageLength + extra)} {node : Node} {s : Progress}

/-- The message holds what has come, in its order, and the memory behind it is untouched. -/
structure Progress.Holds (s : Progress) (message : List Byte) (messageLength : Nat)
    (received : List Byte) : Prop where
  inside : ∀ w ∈ s.log, w.1 + w.2.length ≤ messageLength
  logged : s.log.flatMap Prod.snd = received
  total : s.total = received.length
  bound : s.total ≤ messageLength
  message : s.message = received ++ message.drop s.total

structure Progress.Faithful (s : Progress) (feed : Nat → Received) (message : List Byte)
    (messageLength : Nat) (node : Node) (n : Nat) : Prop where
  pieces : ∀ i < n, (feed i).data ≠ []
  holds : s.Holds message messageLength ((offered feed n).take messageLength)
  node : s.node = node

theorem Progress.Holds.store {received piece : List Byte}
    (h : s.Holds message.bytes messageLength received)
    (hPiece : s.total + piece.length ≤ messageLength) :
    ({ s with
      message := Propagation.store s.message s.total piece
      total := s.total + piece.length
      log := s.log ++ [(s.total, piece)] } : Progress).Holds message.bytes messageLength
        (received ++ piece) := by
  have hMemory := message.length_bytes
  have hTotal := h.total
  refine ⟨?_, ?_, ?_, hPiece, ?_⟩
  · intro w hw
    obtain hOld | hNew := List.mem_append.mp hw
    · exact h.inside w hOld
    · obtain rfl := List.mem_singleton.mp hNew
      exact hPiece
  · rw [List.flatMap_append, h.logged, List.flatMap_singleton]
  · rw [List.length_append, ← hTotal]
  · have hFront : s.message.take s.total = received := by
      rw [h.message, hTotal, List.take_left]
    have hBehind : s.message.drop (s.total + piece.length) =
        message.bytes.drop (s.total + piece.length) := by
      rw [h.message, hTotal, ← List.drop_drop, List.drop_left, List.drop_drop]
    rw [Propagation.store, hFront, hBehind, List.append_assoc]

theorem take_append_take {α : Type} (l l' : List α) (k : Nat) :
    l.take k ++ l'.take (k - (l.take k).length) = (l ++ l').take k := by
  rw [List.take_append, List.length_take]
  congr 2
  omega

theorem faithful_turn {t : Progress}
    (h : s.Faithful feed message.bytes messageLength node n)
    (hTurn : receiveTurn messageLength s (feed n) = .inl t) :
    t.Faithful feed message.bytes messageLength node (n + 1) ∧ s.total < t.total ∧
      t.total ≤ messageLength := by
  unfold receiveTurn at hTurn
  split at hTurn
  · rename_i hMore
    cases hFeed : feed n with
    | failed =>
      rw [hFeed] at hTurn
      cases hTurn
    | closed =>
      rw [hFeed] at hTurn
      cases hTurn
    | bytes data hData =>
      rw [hFeed] at hTurn
      obtain rfl := Sum.inl.inj hTurn
      have hPiece : s.total + (data.take (messageLength - s.total)).length ≤ messageLength := by
        rw [List.length_take]
        omega
      have hSome : 0 < (data.take (messageLength - s.total)).length := by
        have hLength := List.length_pos_iff.mpr hData
        rw [List.length_take]
        omega
      have hHolds := h.holds.store hPiece
      rw [h.holds.total, take_append_take] at hHolds
      refine ⟨⟨?_, ?_, h.node⟩, Nat.lt_add_of_pos_right hSome, hPiece⟩
      · intro i hi
        obtain hEarlier | rfl := Nat.lt_succ_iff_lt_or_eq.mp hi
        · exact h.pieces i hEarlier
        · rwa [hFeed]
      · rw [offered_succ, hFeed, h.holds.total]
        exact hHolds
  · cases hTurn

theorem faithful_start (feed : Nat → Received) (message : Region (messageLength + extra))
    (node : Node) :
    (Progress.start message.bytes node).Faithful feed message.bytes messageLength node 0 where
  pieces i hi := absurd hi (Nat.not_lt_zero i)
  holds := by
    have hNone : (offered feed 0).take messageLength = [] := List.take_nil
    rw [hNone]
    exact ⟨fun w hw => absurd hw List.not_mem_nil, rfl, rfl, Nat.zero_le _, rfl⟩
  node := rfl

theorem faithful_after
    (h : after (receiveTurn messageLength) feed (.start message.bytes node) n = .inl s) :
    s.Faithful feed message.bytes messageLength node n :=
  invariant (fun n s => s.Faithful feed message.bytes messageLength node n)
    (faithful_start feed message node) (fun _ _ _ hs hTurn => (faithful_turn hs hTurn).1) h

/-! ## The end -/

theorem exists_result (feed : Nat → Received) (message : Region (messageLength + extra))
    (node : Node) : ∃ result, after (receiveTurn messageLength) feed (.start message.bytes node)
      (messageLength + 1) = .inr result := by
  refine exists_result_of_measure (fun s : Progress => messageLength - s.total) ?_
  intro n s t hAfter hTurn
  obtain ⟨_, hMore, hBound⟩ := faithful_turn (faithful_after hAfter) hTurn
  omega

theorem exists_running (hPieces : ∀ i < n, (feed i).data ≠ [])
    (hMissing : (offered feed n).length < messageLength) :
    ∃ s, after (receiveTurn messageLength) feed (.start message.bytes node) n = .inl s := by
  induction n with
  | zero => exact ⟨_, rfl⟩
  | succ n ih =>
    rw [offered_succ, List.length_append] at hMissing
    obtain ⟨s, hAfter⟩ := ih (fun i hi => hPieces i (Nat.lt_succ_of_lt hi)) (by omega)
    have hTotal := (faithful_after hAfter).holds.total
    have hMore : s.total < messageLength := by
      rw [hTotal, List.length_take]
      omega
    have hPiece := hPieces n (Nat.lt_succ_self n)
    rw [after_succ hAfter]
    unfold receiveTurn
    rw [if_pos hMore]
    cases hFeed : feed n with
    | failed =>
      rw [hFeed] at hPiece
      exact absurd rfl hPiece
    | closed =>
      rw [hFeed] at hPiece
      exact absurd rfl hPiece
    | bytes data hData => exact ⟨_, rfl⟩

/-- What the loop leaves when it ends in turn `n`. -/
structure Progress.Left (t : Progress) (feed : Nat → Received) (message : List Byte)
    (messageLength : Nat) (node : Node) (returned : Int) (n : Nat) : Prop where
  holds : t.Holds message messageLength ((offered feed n).take messageLength)
  full : returned = 0 ↔ t.total = messageLength
  stopped : returned ≠ 0 → (feed n).data = []
  closed : returned = 3 → feed n = .closed ∧ (offered feed n).length < messageLength
  node : t.node = if returned = 3 then { node with status := 0 } else node

theorem left_of_turn {t : Progress} {returned : Int}
    (h : s.Faithful feed message.bytes messageLength node n)
    (hTurn : receiveTurn messageLength s (feed n) = .inr (returned, t)) :
    t.Left feed message.bytes messageLength node returned n := by
  have hTotal := h.holds.total
  rw [List.length_take] at hTotal
  unfold receiveTurn at hTurn
  split at hTurn
  · cases hFeed : feed n with
    | failed =>
      rw [hFeed] at hTurn
      obtain ⟨rfl, rfl⟩ := Prod.mk.inj (Sum.inr.inj hTurn)
      exact ⟨h.holds, ⟨nofun, fun hFull => by omega⟩, fun _ => by rw [hFeed]; rfl, nofun, h.node⟩
    | closed =>
      rw [hFeed] at hTurn
      obtain ⟨rfl, rfl⟩ := Prod.mk.inj (Sum.inr.inj hTurn)
      refine ⟨⟨h.holds.inside, h.holds.logged, h.holds.total, h.holds.bound, h.holds.message⟩,
        ⟨nofun, fun hFull => ?_⟩, fun _ => by rw [hFeed]; rfl, fun _ => ⟨hFeed, by omega⟩, ?_⟩
      · change s.total = messageLength at hFull
        omega
      · rw [h.node]
        rfl
    | bytes data hData =>
      rw [hFeed] at hTurn
      cases hTurn
  · obtain ⟨rfl, rfl⟩ := Prod.mk.inj (Sum.inr.inj hTurn)
    have hBound := h.holds.bound
    exact ⟨h.holds, ⟨fun _ => by omega, fun _ => rfl⟩, fun hNonzero => absurd rfl hNonzero, nofun,
      h.node⟩

theorem returned_three_iff {k : Nat} {returned : Int} {t : Progress}
    (hEnd : after (receiveTurn messageLength) feed (.start message.bytes node) k =
      .inr (returned, t)) : returned = 3 ↔ PeerCloses .readable feed messageLength := by
  constructor
  · intro hThree
    obtain ⟨m, s, hLast, hTurn⟩ := exists_last hEnd
    have hFaithful := faithful_after hLast
    obtain ⟨hClosed, hMissing⟩ := (left_of_turn hFaithful hTurn).closed hThree
    exact ⟨rfl, m, hClosed, hFaithful.pieces, hMissing⟩
  · rintro ⟨-, m, hClosed, hPieces, hMissing⟩
    obtain ⟨s, hRunning⟩ := @exists_running messageLength extra m feed message node hPieces hMissing
    have hTotal := (faithful_after hRunning).holds.total
    have hMore : s.total < messageLength := by
      rw [hTotal, List.length_take]
      omega
    have hThree := after_succ hRunning
    unfold receiveTurn at hThree
    rw [if_pos hMore, hClosed] at hThree
    exact (Prod.mk.inj (result_unique hEnd hThree)).1

/-- The call on a readable socket always comes back. -/
theorem exists_received (node : Node) (feed : Nat → Received)
    (message : Region (messageLength + extra)) :
    ∃ returned t n, node.receiveMessage .readable feed message.bytes messageLength =
        some (returned, t) ∧
      EndsIn .readable feed message.bytes messageLength node n (returned, t) ∧
      (∀ i < n, (feed i).data ≠ []) ∧
      t.Left feed message.bytes messageLength node returned n ∧
      (returned = 3 ↔ PeerCloses .readable feed messageLength) := by
  obtain ⟨⟨returned, t⟩, hEnd⟩ := exists_result feed message node
  obtain ⟨n, s, hLast, hTurn⟩ := exists_last hEnd
  have hFaithful := faithful_after hLast
  refine ⟨returned, t, n, ?_, ⟨s, hLast, hTurn⟩, hFaithful.pieces, left_of_turn hFaithful hTurn,
    returned_three_iff hEnd⟩
  rw [Node.receiveMessage, hEnd]

end Manhattan.Propagation
