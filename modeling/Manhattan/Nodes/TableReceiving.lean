import Manhattan.Library.FedLoops

/-! # Receiving a node table from a peer that closes

`connect_to_server` and `the_server` receive a table in the same loop, until as many bytes have
come as the peer announced. An error ends the loop; a result of 0, which says that the peer has
closed, does not.
-/

namespace Manhattan.Nodes

open Library.FedLoops

/-- The `int` that is there behind the `recv` of the size, and the results of all calls of `recv`:
of the size first. Once the peer has closed the connection every result is 0. -/
structure Peer where
  size : BitVec 32
  results : Nat → Int
  closed : ∀ i j, i ≤ j → results i = 0 → results j = 0

inductive LoopEnd
  | recvFailed
  | received

/-- `while (bytes_received < file_size)` -/
def receiveTurn (fileSize bytesReceived result : Int) : Int ⊕ LoopEnd :=
  if bytesReceived < fileSize then
    -- recv returns no more than it is asked for
    let result := min result (fileSize - bytesReceived)
    if result < 0 then .inr .recvFailed else .inl (bytesReceived + result)
  else .inr .received

/-- Behind the `recv` of the size and `malloc` -/
def ReceivesTable (turn : Int → Int → Int ⊕ LoopEnd) (peer : Peer) (malloc : Bool) : Prop :=
  0 ≤ peer.results 0 → malloc = true → Ends turn (fun i => peer.results (i + 1)) 0

/-- `recv_buffer` and `recv_file_size` -/
def ConnectToServerEnds (peer : Peer) (malloc : Bool) : Prop :=
  ReceivesTable (receiveTurn peer.size.toInt) peer malloc

/-- `buffer` and `file_size` -/
def TheServerEnds (peer : Peer) (malloc : Bool) : Prop :=
  ReceivesTable (receiveTurn peer.size.toInt) peer malloc

/-- What has come in front of result `n` of the loop -/
def Peer.sent (peer : Peer) (n : Nat) : Int := ∑ i ∈ Finset.range n, peer.results (i + 1)

/-- Where the peer closes, an error has come before, or as much as was announced. -/
def Peer.KeepsWord (peer : Peer) : Prop :=
  ∀ c, peer.results (c + 1) = 0 →
    (∃ i < c, peer.results (i + 1) < 0) ∨ peer.size.toInt ≤ peer.sent c

variable {peer : Peer} {n : Nat}

theorem Peer.sent_succ (peer : Peer) (n : Nat) :
    peer.sent (n + 1) = peer.sent n + peer.results (n + 1) := Finset.sum_range_succ _ n

/-! ## The turns -/

theorem after_of_missing (hNone : ∀ i < n, 0 ≤ peer.results (i + 1))
    (hMissing : ∀ i ≤ n, peer.sent i < peer.size.toInt) :
    after (receiveTurn peer.size.toInt) (fun i => peer.results (i + 1)) 0 n =
      .inl (peer.sent n) := by
  induction n with
  | zero => rfl
  | succ n ih =>
    have hBefore := ih (fun i hi => hNone i (by omega)) fun i hi => hMissing i (by omega)
    have hResult := hNone n (Nat.lt_succ_self n)
    have hNext := hMissing (n + 1) (Nat.le_refl _)
    have hNow := hMissing n (Nat.le_succ n)
    rw [peer.sent_succ] at hNext ⊢
    have hWhole : min (peer.results (n + 1)) (peer.size.toInt - peer.sent n) =
        peer.results (n + 1) := min_eq_left (by omega)
    rw [after_succ hBefore, receiveTurn, if_pos hNow, hWhole, if_neg (Int.not_lt.mpr hResult)]

/-- In front of a turn no error has come, and what has come is in the buffer. -/
structure UnderWay (peer : Peer) (n : Nat) (bytesReceived : Int) : Prop where
  noError : ∀ i < n, 0 ≤ peer.results (i + 1)
  received : bytesReceived = min (peer.sent n) peer.size.toInt

theorem underWay_of_after {bytesReceived : Int} (hSize : 0 < peer.size.toInt)
    (h : after (receiveTurn peer.size.toInt) (fun i => peer.results (i + 1)) 0 n =
      .inl bytesReceived) : UnderWay peer n bytesReceived := by
  refine invariant (UnderWay peer) ⟨fun i hi => absurd hi (Nat.not_lt_zero i), ?_⟩ ?_ h
  · have hNothing : peer.sent 0 = 0 := rfl
    rw [hNothing]
    omega
  · rintro n s t ⟨hNone, rfl⟩ hTurn
    rw [receiveTurn] at hTurn
    split at hTurn
    · rename_i hMissing
      dsimp only at hTurn
      split at hTurn
      · cases hTurn
      · rename_i hResult
        obtain rfl := Sum.inl.inj hTurn
        refine ⟨?_, ?_⟩
        · intro i hi
          obtain hEarlier | rfl := Nat.lt_succ_iff_lt_or_eq.mp hi
          · exact hNone i hEarlier
          · omega
        · rw [peer.sent_succ]
          omega
    · cases hTurn

/-! ## A peer that closes too early -/

theorem Peer.sent_mono_of_noError (hNone : ∀ i < n, 0 ≤ peer.results (i + 1)) {m : Nat}
    (hm : m ≤ n) : peer.sent m ≤ peer.sent n := by
  refine Finset.sum_le_sum_of_subset_of_nonneg (Finset.range_mono hm) ?_
  intro i hi _
  exact hNone i (Finset.mem_range.mp hi)

/-- Every further result is 0, and the loop goes on for ever. -/
theorem not_ends_of_closed {c : Nat} (hClosed : peer.results (c + 1) = 0)
    (hNone : ∀ i < c, 0 ≤ peer.results (i + 1)) (hMissing : peer.sent c < peer.size.toInt) :
    ¬Ends (receiveTurn peer.size.toInt) (fun i => peer.results (i + 1)) 0 := by
  have hLater : ∀ i, c ≤ i → peer.results (i + 1) = 0 := fun i hi =>
    peer.closed (c + 1) (i + 1) (Nat.succ_le_succ hi) hClosed
  have hAll : ∀ i, 0 ≤ peer.results (i + 1) := by
    intro i
    obtain hBefore | hBehind := Nat.lt_or_ge i c
    · exact hNone i hBefore
    · exact (hLater i hBehind).ge
  have hStays : ∀ n, peer.sent n < peer.size.toInt := by
    intro n
    obtain hBefore | hBehind := Nat.le_total n c
    · exact (Peer.sent_mono_of_noError hNone hBefore).trans_lt hMissing
    · induction n, hBehind using Nat.le_induction with
      | base => exact hMissing
      | succ n hn ih =>
        rw [peer.sent_succ, hLater n hn, Int.add_zero]
        exact ih
  rintro ⟨n, r, hEnd⟩
  have hRuns := after_of_missing (n := n) (fun i _ => hAll i) fun i _ => hStays i
  rw [hEnd] at hRuns
  cases hRuns

/-- A loop that goes on for ever has received less than was announced, and a 0 at some point. -/
theorem keepsWord_ends (hSize : 0 < peer.size.toInt) (h : peer.KeepsWord) :
    Ends (receiveTurn peer.size.toInt) (fun i => peer.results (i + 1)) 0 := by
  by_contra hNever
  have hMissing : ∀ n, (∀ i < n, 0 ≤ peer.results (i + 1)) ∧ peer.sent n < peer.size.toInt := by
    intro n
    obtain ⟨s, hAfter⟩ := exists_state_of_not_ends hNever n
    obtain ⟨t, hNext⟩ := exists_state_of_not_ends hNever (n + 1)
    obtain ⟨hNone, rfl⟩ := underWay_of_after hSize hAfter
    refine ⟨hNone, ?_⟩
    rw [after_succ hAfter, receiveTurn] at hNext
    split at hNext
    · rename_i hLess
      omega
    · cases hNext
  have hCloses : ∃ c, peer.results (c + 1) = 0 := by
    by_contra hOpen
    push Not at hOpen
    have hCount : ∀ n : Nat, (n : Int) ≤ peer.sent n := by
      intro n
      induction n with
      | zero => exact Int.le_refl 0
      | succ n ih =>
        have hNone := (hMissing (n + 1)).1 n (Nat.lt_succ_self n)
        have hPiece := hOpen n
        rw [peer.sent_succ]
        omega
    have hEnough := hCount peer.size.toInt.toNat
    have hLess := (hMissing peer.size.toInt.toNat).2
    omega
  obtain ⟨c, hClosed⟩ := hCloses
  obtain ⟨hNone, hLess⟩ := hMissing c
  obtain ⟨i, hi, hError⟩ | hEnough := h c hClosed
  · have hGood := hNone i hi
    omega
  · omega

theorem ends_of_nothing (hSmall : peer.size.toInt ≤ 0) :
    Ends (receiveTurn peer.size.toInt) (fun i => peer.results (i + 1)) 0 := by
  refine ⟨1, .received, ?_⟩
  change receiveTurn peer.size.toInt 0 _ = _
  rw [receiveTurn, if_neg (by omega)]

theorem receivesTable_iff (peer : Peer) (malloc : Bool) :
    ReceivesTable (receiveTurn peer.size.toInt) peer malloc ↔
      peer.results 0 < 0 ∨ malloc = false ∨ peer.size.toInt ≤ 0 ∨ peer.KeepsWord := by
  constructor
  · intro h
    by_contra hNot
    push Not at hNot
    obtain ⟨hFirst, hMalloc, hSize, hWord⟩ := hNot
    unfold Peer.KeepsWord at hWord
    push Not at hWord
    obtain ⟨c, hClosed, hNone, hMissing⟩ := hWord
    exact not_ends_of_closed hClosed hNone hMissing (h hFirst (by simpa using hMalloc))
  · rintro h hFirst hMalloc
    obtain hError | hNull | hSmall | hWord := h
    · omega
    · rw [hMalloc] at hNull
      cases hNull
    · exact ends_of_nothing hSmall
    · obtain hSize | hSmall := lt_or_ge 0 peer.size.toInt
      · exact keepsWord_ends hSize hWord
      · exact ends_of_nothing hSmall

/-- The loops of both functions end if and only if they are not reached, nothing was announced, or
the peer does not close before it has sent what it announced. -/
theorem table_received_iff (peer : Peer) (malloc : Bool) :
    (ConnectToServerEnds peer malloc ∧ TheServerEnds peer malloc) ↔
      peer.results 0 < 0 ∨ malloc = false ∨ peer.size.toInt ≤ 0 ∨ peer.KeepsWord :=
  (and_self_iff).trans (receivesTable_iff peer malloc)

/-- Ten bytes are announced, four are sent. -/
def earlyPeer : Peer where
  size := 10
  results i := if i < 2 then 4 else 0
  closed i j hij h := by
    split at h
    · cases h
    · exact if_neg (by omega)

theorem earlyPeer_never_ends : ¬ConnectToServerEnds earlyPeer true ∧ ¬TheServerEnds earlyPeer true := by
  have hNever : ¬Ends (receiveTurn earlyPeer.size.toInt) (fun i => earlyPeer.results (i + 1)) 0 := by
    refine @not_ends_of_closed earlyPeer 1 rfl ?_ (by decide)
    intro i hi
    obtain rfl : i = 0 := by omega
    decide
  exact ⟨fun h => hNever (h (by decide) rfl), fun h => hNever (h (by decide) rfl)⟩

end Manhattan.Nodes
