import Manhattan.Chain.Inclusion
import Manhattan.Chain.WalletRounds
import Manhattan.Library.InputLeft

/-! # The menu of the wallet

`main` reads a number in every turn and calls what it stands for, until it is 13. The result of
`scanf` is not looked at: where no number can be read, the choice is the one of the turn before, and
what stands in the way is left in the input. What is printed is left out.
-/

namespace Manhattan.Chain

open Library.CStrings Library.StandardInput

/-! ## test_keys_in_wallet -/

/-- `calls` has the results of the library for each row; of the pairs that are tested, which pass is
printed. -/
def testKeysInWallet (opened prepared : Bool) (uninitPublic uninitPrivate : ∀ size, Region size)
    (wallet : List WalletRow) : Option (Int × List (List Byte × List Byte)) :=
  if !opened then some (1, [])
  else if !prepared then some (2, [])
  else do
    let tested ← wallet.mapM (WalletRow.tested uninitPublic uninitPrivate)
    return (0, tested)

/-! ## A turn -/

/-- The variables `choice` and `result` of `main`, its input and the three databases. -/
structure Session where
  choice : BitVec 32
  result : Option Int
  stdin : List Byte
  wallet : List WalletRow
  ledger : Ledger

/-- What a turn takes from outside: what `generate_address` does, what the other calls are given,
and what lies at `&t` and at `&b`, which are not initialized. Of the hundred blocks only the first
is part of `b`. -/
structure Outside where
  opened : Bool
  created : Bool
  rounds : Fin 5 → RoundCalls
  hWallet : HexWallet
  reopened : Bool
  prepared : Bool
  uninitPublic : ∀ size, Region size
  uninitPrivate : ∀ size, Region size
  submission : Submission
  call : Call
  t : Transaction
  b : Fin 100 → Block

inductive Item
  | generateAddress
  | printWallet
  | createTransaction
  | printPool
  | mine
  | printBlocks
  | verifyTransaction
  | verifyBlock
  | verifyBlockchain
  | exit
  | other
  deriving DecidableEq

/-- The numbers 10 to 12 stand for tests that are not there; `validate_blockchain` is called. -/
def item (choice : BitVec 32) : Item :=
  match choice.toInt with
  | 1 => .generateAddress
  | 2 => .printWallet
  | 3 => .createTransaction
  | 4 => .printPool
  | 5 => .mine
  | 6 => .printBlocks
  | 7 => .verifyTransaction
  | 8 => .verifyBlock
  | 9 | 10 | 11 | 12 => .verifyBlockchain
  | 13 => .exit
  | _ => .other

/-- `scanf("%d",&choice)` -/
def Session.scanned (s : Session) : Session :=
  { s with choice := scanfInt s.stdin s.choice, stdin := scanfRest s.stdin }

/-- The input behind a call of `create_transaction`. What is left behind a line does not depend on the
buffer that it goes to. -/
def Submission.rest (s : Submission) : List Byte :=
  if !s.status.openPool then s.stdin
  else if !s.status.createTable then s.stdin
  else
    let input := (fgets s.uninit.sender (getchar s.stdin)).2
    let input := (fgets s.uninit.recipient (getchar input)).2
    let input := (fgets s.uninitInput input).2
    let input := (fgets s.uninitInput input).2
    let input := (fgets s.uninitInput input).2
    let input := (fgets s.uninit.data (getchar input)).2
    scanfRest input

/-- The typed input and the wallet are those of the session. -/
def Outside.submitted (o : Outside) (s : Session) : Submission :=
  { o.submission with stdin := s.stdin, wallet := s.wallet }

def Ledger.start (l : Ledger) (call : Call) : Option Ledger := do
  let blocks ← call.start l.blocks
  return { l with blocks := blocks }

inductive Turned
  | returned
  | goesOn (s : Session)

variable (platform : Platform) (sha384 : Hash) (sqlite : Sqlite)

def Session.generateAddress (s : Session) (o : Outside) : Option Session := do
  let (returned, inserted) ←
    Chain.generateAddress platform.sha3 o.opened o.created o.rounds o.hWallet
  let wallet := s.wallet ++ inserted.map WalletRound.row
  -- only the last `return` of the function stands behind the test of the keys
  if returned = 0 then do
    let _ ← testKeysInWallet o.reopened o.prepared o.uninitPublic o.uninitPrivate wallet
    return { s with wallet := wallet }
  else return { s with wallet := wallet }

/-- The `switch` -/
def Session.select (s : Session) (o : Outside) : Item → Option Turned
  | .generateAddress => do return .goesOn (← s.generateAddress platform o)
  | .printWallet | .printPool => some (.goesOn s)
  | .createTransaction => do
    let ledger ← s.ledger.step platform sha384 sqlite (.createTransaction (o.submitted s))
    return .goesOn { s with ledger := ledger, stdin := (o.submitted s).rest }
  | .mine => do
    let ledger ← s.ledger.step platform sha384 sqlite (.mine o.call)
    return .goesOn { s with ledger := ledger }
  | .printBlocks => do return .goesOn { s with ledger := ← s.ledger.start o.call }
  | .verifyTransaction => do
    return .goesOn { s with result := ← validateTransaction sha384 o.t }
  | .verifyBlock => do return .goesOn { s with result := ← validateBlock sha384 (o.b 0) 3 }
  | .verifyBlockchain => do
    return .goesOn { s with result := ← validateBlockchain (List.ofFn o.b) }
  | .exit => some .returned
  | .other => some (.goesOn s)

def Session.turn (s : Session) (o : Outside) : Option Turned :=
  s.scanned.select platform sha384 sqlite o (item s.scanned.choice)

/-- `main` after `n` turns of `while(1)` -/
def after (outside : ℕ → Outside) (s : Session) : ℕ → Option Turned
  | 0 => some (.goesOn s)
  | n + 1 => do
    match ← after outside s n with
    | .returned => return .returned
    | .goesOn s => s.turn platform sha384 sqlite (outside n)

/-! ## What a turn leaves of the input -/

theorem Submission.rest_suffix (s : Submission) : s.rest <:+ s.stdin := by
  unfold Submission.rest
  split_ifs
  · exact List.suffix_rfl
  · exact List.suffix_rfl
  · refine (scanfRest_suffix _).trans ((fgets_suffix _ _).trans ((getchar_suffix _).trans ?_))
    refine (fgets_suffix _ _).trans ((fgets_suffix _ _).trans ((fgets_suffix _ _).trans ?_))
    refine (fgets_suffix _ _).trans ((getchar_suffix _).trans ?_)
    exact (fgets_suffix _ _).trans (getchar_suffix _)

variable {platform : Platform} {sha384 : Hash} {sqlite : Sqlite} {outside : ℕ → Outside}
  {s t : Session} {o : Outside}

theorem generateAddress_eq (h : s.generateAddress platform o = some t) :
    t = { s with wallet := s.wallet ++ (insertingRounds o.opened o.created o.rounds).map fun calls =>
      (calls.round platform.sha3).row } := by
  obtain ⟨returned, hRounds⟩ :=
    exists_generateAddress platform.sha3 o.opened o.created o.rounds o.hWallet
  rw [Session.generateAddress, hRounds] at h
  simp only [Option.bind_eq_bind, Option.bind_some, List.map_map] at h
  split at h
  · obtain ⟨-, -, h⟩ := Option.bind_eq_some_iff.mp h
    exact (Option.some.inj h).symm
  · exact (Option.some.inj h).symm

theorem select_goesOn {i : Item} (h : s.select platform sha384 sqlite o i = some (.goesOn t)) :
    t.choice = s.choice ∧ t.stdin <:+ s.stdin ∧ i ≠ .exit ∧
      (i = .createTransaction ∨ t.stdin = s.stdin) := by
  cases i with
  | generateAddress =>
    obtain ⟨s', hRounds, h⟩ := Option.bind_eq_some_iff.mp h
    cases h
    obtain rfl := generateAddress_eq hRounds
    exact ⟨rfl, List.suffix_rfl, nofun, .inr rfl⟩
  | createTransaction =>
    obtain ⟨ledger, -, h⟩ := Option.bind_eq_some_iff.mp h
    cases h
    exact ⟨rfl, (o.submitted s).rest_suffix, nofun, .inl rfl⟩
  | exit => cases h
  | mine | printBlocks | verifyTransaction | verifyBlock | verifyBlockchain =>
    obtain ⟨_, -, h⟩ := Option.bind_eq_some_iff.mp h
    cases h
    exact ⟨rfl, List.suffix_rfl, nofun, .inr rfl⟩
  | printWallet | printPool | other =>
    cases h
    exact ⟨rfl, List.suffix_rfl, nofun, .inr rfl⟩

theorem select_returned {i : Item} (h : s.select platform sha384 sqlite o i = some .returned) :
    i = .exit := by
  cases i with
  | exit => rfl
  | generateAddress | createTransaction | mine | printBlocks | verifyTransaction | verifyBlock
  | verifyBlockchain =>
    obtain ⟨_, -, h⟩ := Option.bind_eq_some_iff.mp h
    cases h
  | printWallet | printPool | other => cases h

/-! ## A choice that stays -/

theorem after_succ {n : ℕ} (h : after platform sha384 sqlite outside s n = some (.goesOn t)) :
    after platform sha384 sqlite outside s (n + 1) = t.turn platform sha384 sqlite (outside n) := by
  rw [after, h]
  rfl

theorem Session.scanned_of_blocked (h : Blocked s.stdin) : s.scanned = s := by
  rw [Session.scanned, h.scanfInt, h.scanfRest]

/-- The session `t` with the same choice and the same input as `s`, whatever the databases are. -/
def Session.Same (s t : Session) : Prop := t.choice = s.choice ∧ t.stdin = s.stdin

/-- A turn of `main` reads nothing and does not end the program. -/
structure Session.Stuck (s : Session) : Prop where
  blocked : Blocked s.stdin
  stays : item s.choice ≠ .exit
  typed : item s.choice = .createTransaction → s.stdin = []

theorem Session.Stuck.same (h : s.Stuck) (hSame : s.Same t) : t.Stuck := by
  obtain ⟨hBlocked, hStays, hTyped⟩ := h
  obtain ⟨hChoice, hInput⟩ := hSame
  exact ⟨hInput ▸ hBlocked, hChoice ▸ hStays, fun hItem => hInput ▸ hTyped (hChoice ▸ hItem)⟩

theorem Session.Stuck.turn (h : s.Stuck) {turned : Turned}
    (hTurn : s.turn platform sha384 sqlite o = some turned) :
    ∃ t, turned = .goesOn t ∧ s.Same t := by
  rw [Session.turn, Session.scanned_of_blocked h.blocked] at hTurn
  cases turned with
  | returned => exact absurd (select_returned hTurn) h.stays
  | goesOn t =>
    obtain ⟨hChoice, hInput, -, hTyped | hSame⟩ := select_goesOn hTurn
    · rw [h.typed hTyped] at hInput
      exact ⟨t, rfl, hChoice, (List.suffix_nil.mp hInput).trans (h.typed hTyped).symm⟩
    · exact ⟨t, rfl, hChoice, hSame⟩

theorem Session.Stuck.after (h : s.Stuck) (n : ℕ) {turned : Turned}
    (hAfter : after platform sha384 sqlite outside s n = some turned) :
    ∃ t, turned = .goesOn t ∧ s.Same t := by
  induction n generalizing turned with
  | zero =>
    cases hAfter
    exact ⟨s, rfl, rfl, rfl⟩
  | succ n ih =>
    obtain ⟨before, hBefore, -⟩ := Option.bind_eq_some_iff.mp hAfter
    obtain ⟨u, rfl, hSame⟩ := ih hBefore
    rw [after_succ hBefore] at hAfter
    obtain ⟨t, rfl, hChoice, hInput⟩ := (h.same hSame).turn hAfter
    exact ⟨t, rfl, hChoice.trans hSame.1, hInput.trans hSame.2⟩

theorem turn_rest (h : s.turn platform sha384 sqlite o = some (.goesOn t)) :
    t.stdin <:+ scanfRest s.stdin ∧ t.choice = scanfInt s.stdin s.choice ∧ item t.choice ≠ .exit := by
  obtain ⟨hChoice, hInput, hExit, -⟩ := select_goesOn h
  exact ⟨hInput, hChoice, hChoice ▸ hExit⟩

theorem exists_stuck {state : ℕ → Session}
    (hTurns : ∀ n, (state n).turn platform sha384 sqlite (outside n) = some (.goesOn (state (n + 1)))) :
    ∃ n, Blocked (state n).stdin ∧ item (state n).choice ≠ .exit ∧
      ∀ m, n ≤ m → (state n).Same (state m) := by
  have hRest : ∀ n, (state (n + 1)).stdin <:+ scanfRest (state n).stdin := fun n =>
    (turn_rest (hTurns n)).1
  obtain ⟨n, hConstant⟩ := exists_constant_of_suffix (fun n => (state n).stdin) fun n =>
    (hRest n).trans (scanfRest_suffix (state n).stdin)
  have hBlocked : ∀ m, n ≤ m → Blocked (state m).stdin := by
    intro m hm
    have hSame : (state (m + 1)).stdin = (state m).stdin :=
      (hConstant (m + 1) (Nat.le_succ_of_le hm)).trans (hConstant m hm).symm
    have hFrom := hRest m
    rw [hSame] at hFrom
    have hBack := scanfRest_suffix (state m).stdin
    exact blocked_of_scanfRest_eq (hBack.eq_of_length (hBack.length_le.antisymm hFrom.length_le))
  have hChoice : ∀ m, n ≤ m → (state (m + 1)).choice = (state m).choice := fun m hm =>
    (turn_rest (hTurns m)).2.1.trans ((hBlocked m hm).scanfInt _)
  refine ⟨n, hBlocked n le_rfl, ?_, ?_⟩
  · rw [← hChoice n le_rfl]
    exact (turn_rest (hTurns n)).2.2
  · intro m hm
    refine ⟨?_, hConstant m hm⟩
    induction m, hm using Nat.le_induction with
    | base => rfl
    | succ m hm ih => exact (hChoice m hm).trans ih

/-- Whatever is typed and whatever the calls do: `main` returns, or a turn is undefined, or from some
turn on no number can be read, and every turn has the same choice. And where no number can be read
and the choice is not to end or to type a transaction, no later turn returns or changes the choice. -/
theorem main_repeats (platform : Platform) (sha384 : Hash) (sqlite : Sqlite)
    (outside : ℕ → Outside) (s : Session) :
    ((∃ n, after platform sha384 sqlite outside s n = none ∨
        after platform sha384 sqlite outside s n = some .returned) ∨
      ∃ n t, after platform sha384 sqlite outside s n = some (.goesOn t) ∧ Blocked t.stdin ∧
        item t.choice ≠ .exit ∧ ∀ m, n ≤ m →
          ∃ u, after platform sha384 sqlite outside s m = some (.goesOn u) ∧ t.Same u) ∧
    (s.Stuck → ∀ n turned, after platform sha384 sqlite outside s n = some turned →
      ∃ t, turned = .goesOn t ∧ s.Same t) := by
  refine ⟨?_, fun h n _ hAfter => h.after n hAfter⟩
  refine or_iff_not_imp_left.mpr fun hEnds => ?_
  have hGoesOn : ∀ n, ∃ t, after platform sha384 sqlite outside s n = some (.goesOn t) := by
    intro n
    rcases hAfter : after platform sha384 sqlite outside s n with _ | _ | t
    · exact absurd ⟨n, .inl hAfter⟩ hEnds
    · exact absurd ⟨n, .inr hAfter⟩ hEnds
    · exact ⟨t, rfl⟩
  choose state hState using hGoesOn
  have hTurns : ∀ n, (state n).turn platform sha384 sqlite (outside n) =
      some (.goesOn (state (n + 1))) := fun n =>
    (after_succ (hState n)).symm.trans (hState (n + 1))
  obtain ⟨n, hBlocked, hExit, hSame⟩ := exists_stuck hTurns
  exact ⟨n, state n, hState n, hBlocked, hExit, fun m hm => ⟨state m, hState m, hSame m hm⟩⟩

/-- The second pair has the address of the first one, and is not inserted. -/
def aliceOutside : Outside where
  opened := true
  created := true
  rounds i := ⟨⟨true, OQS_SUCCESS, .zeros 1312, .zeros 2528⟩, ⟨true, 1, 1, 1, 48, zeroDigest⟩,
    ⟨true, OQS_SUCCESS, OQS_SUCCESS⟩, i = 0⟩
  hWallet := .zeros 7754
  reopened := true
  prepared := true
  uninitPublic := .zeros
  uninitPrivate := .zeros
  submission := alice
  call := callAt 1001
  t := ⟨⟨.ascii "alice", by decide⟩, ⟨.ascii "bob", by decide⟩, one, .zeros 4841⟩
  b _ := zeroBlock

/-- A letter is typed where `main` asks for a number. -/
def letterTyped : Session := ⟨0, none, [120], [], .empty⟩

theorem main_repeats_letter :
    letterTyped.Stuck ∧ ∀ n turned,
      after onesPlatform lengthHash Sqlite.first (fun _ => aliceOutside) letterTyped n =
        some turned → ∃ t, turned = .goesOn t ∧ letterTyped.Same t := by
  have hStuck : letterTyped.Stuck := by
    refine ⟨?_, by decide, by decide⟩
    rintro b ⟨⟩
    decide
  exact ⟨hStuck, (main_repeats onesPlatform lengthHash Sqlite.first _ letterTyped).2 hStuck⟩

end Manhattan.Chain
