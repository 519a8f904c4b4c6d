import Manhattan.Chain.Validation

/-! # When mining builds one chain

The tip is found by the stored timestamps, which are the clock cut down to 32 bits, and
the text of the tip goes through an array of 96 characters. Where neither interferes, every
call adds its block on top of the row that the call before it added.
-/

namespace Manhattan.Chain

open Library.CStrings

variable {sha384 : Hash} {sqlite : Sqlite}

/-! ## The conditions on a call -/

def Call.Fresh (sha384 : Hash) (sqlite : Sqlite) (call : Call) (rows : List Row) : Prop :=
  ∀ b rows', mine sha384 sqlite call rows = some (b, rows') →
    ∀ r ∈ rows, b.blockHashHex ≠ some r.blockHash

def LastFits (rows : List Row) : Prop := ∀ last ∈ rows.getLast?, last.blockHash.length ≤ 96

structure Call.Orderly (sha384 : Hash) (sqlite : Sqlite) (call : Call) (rows : List Row) :
    Prop where
  succeeds : call.Succeeds sha384 sqlite rows
  fresh : call.Fresh sha384 sqlite rows
  readable : call.Readable
  fits : LastFits rows

def Call.stored (call : Call) : Int := bindInt call.blockClock

def storedClocks : List Call → List Int
  | [] => []
  | call :: rest => bindInt (call.genesisClock - 1) :: call.stored :: rest.map Call.stored

theorem Along.take {P : Call → List Row → Prop} {calls : List Call} {rows : List Row}
    (h : Along sha384 sqlite P calls rows) (n : Nat) :
    Along sha384 sqlite P (calls.take n) rows := by
  rw [← List.take_append_drop n calls] at h
  exact h.left

theorem newest_concat {older : List Row} {last : Row}
    (h : ∀ r ∈ older, r.timestamp < last.timestamp) :
    sqlite.newest (older ++ [last]) = some last := by
  obtain ⟨r, hMem, hNewest, hGreatest⟩ :=
    sqlite.newest_of_ne_nil (older ++ [last]) (List.append_ne_nil_of_right_ne_nil _ (by simp))
  rcases List.mem_append.mp hMem with hOld | hLast
  · have hLess := h r hOld
    have hLe := hGreatest last (List.mem_append_right _ (List.mem_singleton.mpr rfl))
    omega
  · rw [hNewest, List.mem_singleton.mp hLast]

theorem insertRow_of_fresh {rows : List Row} {row : Row}
    (h : ∀ r ∈ rows, row.blockHash ≠ r.blockHash) : insertRow rows row = rows ++ [row] := by
  apply if_neg
  intro hMem
  obtain ⟨r, hr, hEq⟩ := List.mem_map.mp hMem
  exact h r hr hEq.symm

/-! ## The chain -/

/-- A genesis row and one row a block, each on top of the row before and newer than it, no
text twice. -/
structure Linked (blocks : List Block) (rows : List Row) : Prop where
  epoch : ∃ genesis added, rows = genesis :: added ∧ genesis.blockHash = EPOCH ∧
    List.Forall₂ (fun b r => Block.blockHashHex b = some (Row.blockHash r)) blocks added
  chain : rows.IsChain fun r r' => r'.previousHash = r.blockHash
  distinct : (rows.map Row.blockHash).Nodup
  times : rows.Pairwise fun r r' => r.timestamp < r'.timestamp

theorem linked_epoch (now : BitVec 64) : Linked [] [epochRow now] where
  epoch := ⟨epochRow now, [], rfl, rfl, .nil⟩
  chain := List.isChain_singleton _
  distinct := List.nodup_singleton _
  times := List.pairwise_singleton _ _

theorem Linked.older_lt {blocks : List Block} {older : List Row} {last : Row}
    (h : Linked blocks (older ++ [last])) : ∀ r ∈ older, r.timestamp < last.timestamp := by
  intro r hr
  exact (List.pairwise_append.mp h.times).2.2 r hr last (List.mem_singleton.mpr rfl)

theorem Linked.add {blocks : List Block} {older : List Row} {last row : Row} {b : Block}
    (h : Linked blocks (older ++ [last])) (hRow : row.previousHash = last.blockHash)
    (hTime : last.timestamp < row.timestamp) (hText : b.blockHashHex = some row.blockHash)
    (hFresh : ∀ r ∈ older ++ [last], row.blockHash ≠ r.blockHash) :
    Linked (blocks ++ [b]) (older ++ [last] ++ [row]) := by
  have hOlder := h.older_lt
  obtain ⟨⟨genesis, added, hRows, hEpoch, hBlocks⟩, hChain, hDistinct, hTimes⟩ := h
  constructor
  · refine ⟨genesis, added ++ [row], by rw [hRows, List.cons_append], hEpoch, ?_⟩
    exact List.rel_append hBlocks (.cons hText .nil)
  · apply hChain.append (List.isChain_singleton row)
    intro r hr r' hr'
    rw [List.getLast?_concat] at hr
    obtain rfl := Option.some.inj hr
    obtain rfl := Option.some.inj hr'
    exact hRow
  · rw [List.map_append, List.nodup_append]
    refine ⟨hDistinct, List.nodup_singleton _, ?_⟩
    intro text hOld text' hNew
    obtain ⟨r, hr, rfl⟩ := List.mem_map.mp hOld
    obtain ⟨r', hr', rfl⟩ := List.mem_map.mp hNew
    rw [List.mem_singleton.mp hr']
    exact (hFresh r hr).symm
  · rw [List.pairwise_append]
    refine ⟨hTimes, List.pairwise_singleton _ _, ?_⟩
    intro r hr r' hr'
    rw [List.mem_singleton.mp hr']
    rcases List.mem_append.mp hr with hOld | hLast
    · exact (hOlder r hOld).trans hTime
    · rwa [List.mem_singleton.mp hLast]

theorem mine_linked {call : Call} {rows : List Row} (older : List Row) {last : Row}
    {blocks : List Block}
    (hSucceeds : call.Succeeds sha384 sqlite rows) (hReadable : call.Readable)
    (hStart : call.start rows = some (older ++ [last])) (hLinked : Linked blocks (older ++ [last]))
    (hFits : last.blockHash.length ≤ 96) (hTime : last.timestamp < call.stored)
    (hFresh : ∀ b rows', mine sha384 sqlite call rows = some (b, rows') →
      ∀ r ∈ older ++ [last], b.blockHashHex ≠ some r.blockHash) :
    ∃ b row, mine sha384 sqlite call rows = some (b, older ++ [last] ++ [row]) ∧
      Linked (blocks ++ [b]) (older ++ [last] ++ [row]) ∧
      row.timestamp = call.stored := by
  obtain ⟨b, pool, nonce, newHash, hMine, _, _, _, hHex⟩ :=
    exists_mine hStart (newest_concat hLinked.older_lt) hReadable hFits hSucceeds
  have hNew : ∀ r ∈ older ++ [last],
      (call.row last.blockHash pool nonce newHash).blockHash ≠ r.blockHash := by
    intro r hr hEq
    apply hFresh b _ hMine r hr
    rw [hHex, ← hEq]
    rfl
  rw [insertRow_of_fresh hNew] at hMine
  exact ⟨b, _, hMine, hLinked.add rfl hTime hHex hNew, rfl⟩

theorem mineAll_linked {calls : List Call} {older : List Row} {last : Row} {blocks : List Block}
    (hLinked : Linked blocks (older ++ [last]))
    (hOrderly : Along sha384 sqlite (Call.Orderly sha384 sqlite) calls (older ++ [last]))
    (hClocks : (last.timestamp :: calls.map Call.stored).IsChain (· < ·)) :
    ∃ more rows, mineAll sha384 sqlite calls (older ++ [last]) = some (more, rows) ∧
      Linked (blocks ++ more) rows := by
  induction calls generalizing older last blocks with
  | nil => exact ⟨[], _, rfl, by rwa [List.append_nil]⟩
  | cons call rest ih =>
    have hCall := hOrderly.1
    obtain ⟨hTime, hLater⟩ := List.isChain_cons_cons.mp hClocks
    have hStart : call.start (older ++ [last]) = some (older ++ [last]) :=
      startBlockchain_of_ne_nil _ _ _ (List.append_ne_nil_of_right_ne_nil _ (by simp))
    have hFits := hCall.fits last (List.getLast?_concat)
    obtain ⟨b, row, hMine, hLinked', hRow⟩ :=
      mine_linked older hCall.succeeds hCall.readable hStart hLinked hFits hTime hCall.fresh
    rw [← hRow] at hLater
    obtain ⟨more, rows, hMore, hLast⟩ := ih hLinked' (hOrderly.next hMine) hLater
    refine ⟨b :: more, rows, mineAll_cons hMine hMore, ?_⟩
    rwa [List.append_assoc] at hLast

/-! ## Runs -/

/-- One genesis row, then the row of each block, on top of the row before it; no two of the
blocks have one predecessor. -/
def LinearChain (blocks : List Block) (rows : List Row) : Prop :=
  ∃ genesis added, rows = genesis :: added ∧ genesis.blockHash = EPOCH ∧
    (∀ r ∈ added, r.blockHash ≠ EPOCH) ∧
    List.Forall₂ (fun b r => Block.blockHashHex b = some (Row.blockHash r)) blocks added ∧
    (genesis :: added).IsChain (fun r r' => r'.previousHash = r.blockHash) ∧
    (added.map Row.previousHash).Nodup

theorem map_previousHash_of_chain {r : Row} {rows : List Row}
    (h : (r :: rows).IsChain fun r r' => r'.previousHash = r.blockHash) :
    rows.map Row.previousHash = ((r :: rows).dropLast).map Row.blockHash := by
  induction rows generalizing r with
  | nil => rfl
  | cons next rows ih =>
    obtain ⟨hLink, hRest⟩ := List.isChain_cons_cons.mp h
    rw [List.dropLast_cons_cons, List.map_cons, List.map_cons, ih hRest, hLink]

theorem Linked.linearChain {blocks : List Block} {rows : List Row} (h : Linked blocks rows) :
    LinearChain blocks rows := by
  obtain ⟨⟨genesis, added, rfl, hEpoch, hBlocks⟩, hChain, hDistinct, _⟩ := h
  refine ⟨genesis, added, rfl, hEpoch, ?_, hBlocks, hChain, ?_⟩
  · intro r hr hEq
    rw [List.map_cons, List.nodup_cons] at hDistinct
    apply hDistinct.1
    rw [hEpoch, ← hEq]
    exact List.mem_map_of_mem hr
  · rw [map_previousHash_of_chain hChain, List.map_dropLast]
    exact hDistinct.sublist (List.dropLast_sublist _)

theorem storedClocks_take {calls : List Call} (h : (storedClocks calls).IsChain (· < ·)) (n : Nat) :
    (storedClocks (calls.take n)).IsChain (· < ·) := by
  cases calls with
  | nil =>
    rw [List.take_nil]
    exact h
  | cons call rest =>
    cases n with
    | zero => exact List.isChain_nil
    | succ n =>
      have hTake := h.take (n + 2)
      rwa [storedClocks, List.take_succ_cons, List.take_succ_cons, ← List.map_take] at hTake

theorem hexText_ne_epoch (hash : List Byte) : hexText hash ≠ EPOCH := by
  intro h
  have hLength := le_length_hexText hash
  have hEpoch : EPOCH.length = 5 := by decide
  rw [h] at hLength
  omega

/-- Started on an empty database, orderly calls whose stored timestamps rise build one chain:
after each of them the table is the genesis row with one row a call, each on top of the row
before. -/
theorem mining_linear (sha384 : Hash) (sqlite : Sqlite) (calls : List Call)
    (hOrderly : Along sha384 sqlite (Call.Orderly sha384 sqlite) calls [])
    (hClocks : (storedClocks calls).IsChain (· < ·))
    (n : Nat) (hn : 0 < n) (hLength : n ≤ calls.length) :
    ∃ blocks rows, mineAll sha384 sqlite (calls.take n) [] = some (blocks, rows) ∧
      blocks.length = n ∧ LinearChain blocks rows := by
  cases calls with
  | nil =>
    rw [List.length_nil] at hLength
    omega
  | cons call rest =>
    obtain ⟨k, rfl⟩ := Nat.exists_eq_succ_of_ne_zero (Nat.pos_iff_ne_zero.mp hn)
    have hTaken := hOrderly.take (k + 1)
    have hFirst := hTaken.1
    have hTake := storedClocks_take hClocks (k + 1)
    rw [List.take_succ_cons, storedClocks] at hTake
    obtain ⟨hTime, hLater⟩ := List.isChain_cons_cons.mp hTake
    have hEpoch : EPOCH.length ≤ 96 := by decide
    have hFresh : ∀ b rows', mine sha384 sqlite call [] = some (b, rows') →
        ∀ r ∈ [epochRow call.genesisClock], b.blockHashHex ≠ some r.blockHash := by
      intro b rows' hMine r hr hText
      obtain ⟨_, _, _, _, _, newHash, _, _, _, hSealed, _⟩ := mine_block hMine hFirst.succeeds
      rw [hSealed.hex, List.mem_singleton.mp hr] at hText
      exact hexText_ne_epoch _ (Option.some.inj hText)
    obtain ⟨b, row, hMine, hLinked, hRow⟩ := mine_linked [] hFirst.succeeds
      hFirst.readable (startBlockchain_nil _ _ _) (linked_epoch _) hEpoch hTime hFresh
    rw [← hRow] at hLater
    obtain ⟨more, rows, hMore, hLast⟩ := mineAll_linked hLinked (hTaken.next hMine) hLater
    have hAll := mineAll_cons hMine hMore
    refine ⟨b :: more, rows, hAll, ?_, hLast.linearChain⟩
    rw [(readable_of_mineAll hAll).1, List.length_cons, List.length_take]
    rw [List.length_cons] at hLength
    omega

/-- A hash that always meets the difficulty and ends in the last digit of the timestamp, when
the numbers behind it have one digit each. -/
def clockHash : Hash := fun data =>
  ⟨List.replicate 47 0 ++ [data.getD (data.length - 3) 0], by simp⟩

theorem clockHash_mined (data : List Byte) : (clockHash data).Mined := rfl

theorem mining_linear_two :
    let calls := [callAt 1001, callAt 1005]
    Along clockHash Sqlite.first (Call.Orderly clockHash Sqlite.first) calls [] ∧
      ∃ blocks rows, mineAll clockHash Sqlite.first (calls.take 2) [] = some (blocks, rows) ∧
        blocks.length = 2 ∧ LinearChain blocks rows := by
  intro calls
  have hRun : (mine clockHash Sqlite.first (callAt 1001) []).all (fun p =>
      p.2.getLast?.all (fun last => last.blockHash.length ≤ 96) &&
      (mine clockHash Sqlite.first (callAt 1005) p.2).all (fun q =>
        p.2.all (fun r => q.1.blockHashHex ≠ some r.blockHash))) = true := by decide +kernel
  have hOrderly : Along clockHash Sqlite.first (Call.Orderly clockHash Sqlite.first) calls [] := by
    have hEasy := along_of_easy Sqlite.first clockHash_mined calls short_nil
    refine ⟨⟨hEasy.1, ?_, callAt_readable _, ?_⟩, ?_⟩
    · intro b rows' hMine r hr
      cases hr
    · intro last hLast
      cases hLast
    · intro rows' hStep
      obtain ⟨b, hMine⟩ := mineStep_eq_some.mp hStep
      rw [hMine, Option.all_some, Bool.and_eq_true] at hRun
      obtain ⟨hText, hNext⟩ := hRun
      refine ⟨⟨(hEasy.next hMine).1, ?_, callAt_readable _, ?_⟩, fun _ _ => trivial⟩
      · intro b' rows'' hMine' r hr
        rw [hMine', Option.all_some] at hNext
        exact of_decide_eq_true (List.all_eq_true.mp hNext r hr)
      · intro last hLast
        rw [Option.mem_def.mp hLast, Option.all_some] at hText
        exact of_decide_eq_true hText
  exact ⟨hOrderly, mining_linear clockHash Sqlite.first calls hOrderly (by decide) 2 (by decide)
    (by decide)⟩

/-- Around 2^31 seconds the stored timestamps fall, and two blocks go on top of one row. -/
theorem mining_forks :
    let calls := [callAt 2147483646, callAt 2147483650, callAt 2147483661]
    (calls.flatMap fun call => [call.structClock.toInt, call.genesisClock.toInt,
        call.blockClock.toInt]).Pairwise (· < ·) ∧
      Along clockHash Sqlite.first (Call.Succeeds clockHash Sqlite.first) calls [] ∧
      ∃ blocks rows, mineAll clockHash Sqlite.first calls [] = some (blocks, rows) ∧
        (blocks.map Block.blockHash).Nodup ∧ (rows.map Row.blockHash).Nodup ∧
        ¬LinearChain blocks rows := by
  intro calls
  refine ⟨by decide, along_of_easy Sqlite.first clockHash_mined calls short_nil, ?_⟩
  have hRun : (mineAll clockHash Sqlite.first calls []).any (fun p =>
      decide (p.1.map Block.blockHash).Nodup && decide (p.2.map Row.blockHash).Nodup &&
        !decide (p.2.tail.map Row.previousHash).Nodup) = true := by decide +kernel
  obtain ⟨⟨blocks, rows⟩, hMine, hRun⟩ := (Option.any_eq_true _ _).mp hRun
  rw [Bool.and_eq_true, Bool.and_eq_true, Bool.not_eq_true'] at hRun
  obtain ⟨⟨hBlocks, hRows⟩, hShared⟩ := hRun
  refine ⟨blocks, rows, hMine, of_decide_eq_true hBlocks, of_decide_eq_true hRows, ?_⟩
  rintro ⟨genesis, added, rfl, _, _, _, _, hDistinct⟩
  exact of_decide_eq_false hShared hDistinct

end Manhattan.Chain
