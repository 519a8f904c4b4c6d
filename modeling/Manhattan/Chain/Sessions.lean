import Manhattan.Chain.BlockTree
import Manhattan.Chain.InsertText
import Manhattan.Chain.Menu
import Manhattan.Library.Snapshots

/-! # The databases over sessions

The wallet program is started on empty databases, then ended and started again any number of times.
Whatever is chosen from its menu, the pool is a log and the bundles of the blocks are copies of it;
`blocks` stays a tree, and no row of a database is lost.
-/

namespace Manhattan.Chain

open Library Library.CStrings Library.Runs Library.Snapshots Library.StandardInput

variable {platform : Platform} {sha384 : Hash} {sqlite : Sqlite} {s t : Session} {o : Outside}
  {l l' : Ledger}

/-! ## What may happen -/

/-- One INSERT of literals takes no row out of its table. -/
def Platform.Inserts (platform : Platform) : Prop :=
  ∀ sql rows, (SqlText.statement sql.chars).isSome → rows <+: (platform.exec sql rows).1

def Submission.OneInsert (platform : Platform) (s : Submission) : Prop :=
  ∀ sql ∈ s.sql platform, (SqlText.statement sql.chars).isSome

/-- Where a block is mined the search succeeds, and where a transaction is typed the text that is made
of it is one INSERT. -/
def Session.Meets (platform : Platform) (sha384 : Hash) (sqlite : Sqlite) (s : Session)
    (o : Outside) : Item → Prop
  | .mine => (o.call.onPool s.ledger.pool).Succeeds sha384 sqlite s.ledger.blocks
  | .createTransaction => (o.submitted s).OneInsert platform
  | _ => True

section

variable (platform : Platform) (sha384 : Hash) (sqlite : Sqlite)
  (meets : Session → Outside → Item → Prop)

/-- A turn of `main` that meets a condition, or a new start with another input. -/
inductive Session.Moves : Session → Session → Prop
  | turn {s t : Session} (o : Outside) (allowed : meets s.scanned o (item s.scanned.choice))
      (turned : s.turn platform sha384 sqlite o = some (.goesOn t)) : Moves s t
  | again (s : Session) (stdin : List Byte) :
      Moves s { s with choice := 0, result := none, stdin := stdin }

def Session.Leads : Session → Session → Prop :=
  Relation.ReflTransGen (Session.Moves platform sha384 sqlite meets)

/-- What a turn of `main` was taken with. -/
structure Turn where
  chosen : Item
  outside : Outside

/-- `Leads` with its turns, the oldest first. -/
inductive Session.Takes (s : Session) : List Turn → Session → Prop
  | refl : Takes s [] s
  | turn {t u : Session} {turns : List Turn} (taken : Takes s turns t) (o : Outside)
      (allowed : meets t.scanned o (item t.scanned.choice))
      (turned : t.turn platform sha384 sqlite o = some (.goesOn u)) :
      Takes s (turns ++ [⟨item t.scanned.choice, o⟩]) u
  | again {t : Session} {turns : List Turn} (taken : Takes s turns t) (stdin : List Byte) :
      Takes s turns { t with choice := 0, result := none, stdin := stdin }

end

def Session.first (stdin : List Byte) : Session := ⟨0, none, stdin, [], .empty⟩

variable {meets : Session → Outside → Item → Prop} {turns : List Turn}

theorem Session.Takes.leads (h : s.Takes platform sha384 sqlite meets turns t) :
    s.Leads platform sha384 sqlite meets t := by
  induction h with
  | refl => exact .refl
  | turn _ o hMeets hTurn ih => exact ih.tail (.turn o hMeets hTurn)
  | again _ stdin ih => exact ih.tail (.again _ stdin)

theorem Session.Leads.exists_turns (h : s.Leads platform sha384 sqlite meets t) :
    ∃ turns, s.Takes platform sha384 sqlite meets turns t := by
  induction h with
  | refl => exact ⟨[], .refl⟩
  | tail _ hMove ih =>
    obtain ⟨turns, hTurns⟩ := ih
    cases hMove with
    | turn o hMeets hTurn => exact ⟨_, hTurns.turn o hMeets hTurn⟩
    | again stdin => exact ⟨turns, hTurns.again stdin⟩

/-! ## The ledger -/

def Ledger.log (l : Ledger) : Log PoolRow := ⟨l.pool.rows, l.sources⟩

structure Ledger.Sound (sha384 : Hash) (l : Ledger) : Prop where
  bundled : l.Bundled
  tree : l.blocks = [] ∨ Tree sha384 l.blocks
  ordered : l.log.Ordered

theorem sound_empty : Ledger.empty.Sound sha384 := ⟨bundled_empty, .inl rfl, .nil, nofun⟩

/-- What a call that succeeds does to a sound ledger. -/
structure Ledger.Advances (sha384 : Hash) (l l' : Ledger) : Prop where
  bundled : l'.Bundled
  tree : l'.blocks = [] ∨ Tree sha384 l'.blocks
  kept : l.blocks <+: l'.blocks
  log : Step l.log l'.log

theorem Ledger.Sound.refl_advances (h : l.Sound sha384) : l.Advances sha384 l :=
  ⟨h.bundled, h.tree, List.prefix_rfl, .append _ List.prefix_rfl⟩

theorem createTransaction_keeps (hInserts : platform.Inserts) {submission : Submission}
    (hOne : submission.OneInsert platform) {pool : Pool} {outcome : Outcome}
    (h : createTransaction platform submission pool = some outcome) :
    pool.rows <+: outcome.pool.rows := by
  rcases createTransaction_ends h with ⟨-, hSame⟩ | ⟨-, sql, hSql, hRows⟩
  · rw [hSame]
  · rw [hRows]
    exact hInserts sql pool.rows (hOne sql hSql)

theorem Ledger.Sound.createTransaction (h : l.Sound sha384) (hInserts : platform.Inserts)
    {submission : Submission} (hOne : submission.OneInsert platform)
    (hStep : l.step platform sha384 sqlite (.createTransaction submission) = some l') :
    l.Advances sha384 l' := by
  obtain ⟨outcome, hOutcome, hStep⟩ := Option.bind_eq_some_iff.mp hStep
  obtain rfl := Option.some.inj hStep
  obtain ⟨⟨hShort, hStart, hBundles⟩, hTree, -⟩ := h
  exact ⟨⟨hShort, hStart, hBundles⟩, hTree, List.prefix_rfl,
    .append _ (createTransaction_keeps hInserts hOne hOutcome)⟩

theorem Ledger.Sound.mine (h : l.Sound sha384) {call : Call}
    (hSucceeds : (call.onPool l.pool).Succeeds sha384 sqlite l.blocks)
    (hStep : l.step platform sha384 sqlite (.mine call) = some l') : l.Advances sha384 l' := by
  obtain ⟨hBundled, hPool, hSources⟩ := step_mine h.bundled hStep
  obtain ⟨⟨b, blocks⟩, hMine, hStep⟩ := Option.bind_eq_some_iff.mp hStep
  obtain ⟨hKept, hTree⟩ := Tree.mine h.tree hSucceeds hMine
  have hBlocks : l'.blocks = blocks := congrArg Ledger.blocks (Option.some.inj hStep).symm
  rw [← hBlocks] at hKept hTree
  refine ⟨hBundled, .inr hTree, hKept, ?_⟩
  rw [Ledger.log, Ledger.log, hPool]
  rcases hSources with hSame | hMore
  · rw [hSame]
    exact .append _ List.prefix_rfl
  · rw [hMore]
    exact .copy _ _

theorem Ledger.Sound.start (h : l.Sound sha384) {call : Call} (hStart : l.start call = some l') :
    l.Advances sha384 l' := by
  obtain ⟨blocks, hBlocks, hStart⟩ := Option.bind_eq_some_iff.mp hStart
  obtain rfl := Option.some.inj hStart
  obtain ⟨hKept, hTree⟩ := Tree.start h.tree hBlocks
  obtain ⟨genesis, added, rfl, hBundles⟩ := h.bundled.started hBlocks
  exact ⟨⟨hTree.short, nofun, hBundles⟩, .inr hTree, hKept, .append _ List.prefix_rfl⟩

theorem Ledger.Advances.sound (h : l.Advances sha384 l') (hSound : l.Sound sha384) :
    l'.Sound sha384 := ⟨h.bundled, h.tree, h.log.ordered hSound.ordered⟩

/-! ## Turns -/

theorem select_advances (hInserts : platform.Inserts) (hSound : s.ledger.Sound sha384) {i : Item}
    (hMeets : s.Meets platform sha384 sqlite o i)
    (h : s.select platform sha384 sqlite o i = some (.goesOn t)) :
    s.ledger.Advances sha384 t.ledger := by
  cases i with
  | createTransaction =>
    obtain ⟨ledger, hLedger, h⟩ := Option.bind_eq_some_iff.mp h
    cases h
    exact hSound.createTransaction hInserts hMeets hLedger
  | mine =>
    obtain ⟨ledger, hLedger, h⟩ := Option.bind_eq_some_iff.mp h
    cases h
    exact hSound.mine hMeets hLedger
  | printBlocks =>
    obtain ⟨ledger, hLedger, h⟩ := Option.bind_eq_some_iff.mp h
    cases h
    exact hSound.start hLedger
  | generateAddress =>
    obtain ⟨s', hRounds, h⟩ := Option.bind_eq_some_iff.mp h
    cases h
    obtain rfl := generateAddress_eq hRounds
    exact hSound.refl_advances
  | verifyTransaction | verifyBlock | verifyBlockchain =>
    obtain ⟨_, -, h⟩ := Option.bind_eq_some_iff.mp h
    cases h
    exact hSound.refl_advances
  | printWallet | printPool | other =>
    cases h
    exact hSound.refl_advances
  | exit => cases h

theorem Session.Moves.advances (hInserts : platform.Inserts) (hSound : s.ledger.Sound sha384)
    (h : s.Moves platform sha384 sqlite (Session.Meets platform sha384 sqlite) t) :
    s.ledger.Advances sha384 t.ledger := by
  cases h with
  | turn o hMeets hTurn =>
    have hScanned : s.scanned.ledger.Sound sha384 := hSound
    have hAdvances : s.scanned.ledger.Advances sha384 t.ledger :=
      select_advances hInserts hScanned hMeets hTurn
    exact hAdvances
  | again stdin => exact hSound.refl_advances

theorem Session.Leads.later (hInserts : platform.Inserts) (hSound : s.ledger.Sound sha384)
    (h : s.Leads platform sha384 sqlite (Session.Meets platform sha384 sqlite) t) :
    t.ledger.Sound sha384 ∧ s.ledger.blocks <+: t.ledger.blocks ∧
      s.ledger.log.Before t.ledger.log := by
  induction h with
  | refl => exact ⟨hSound, List.prefix_rfl, .refl _⟩
  | tail _ hMove ih =>
    obtain ⟨hMiddle, hBlocks, hLog⟩ := ih
    have hAdvances := hMove.advances hInserts hMiddle
    exact ⟨hAdvances.sound hMiddle, hBlocks.trans hAdvances.kept, hLog.trans hAdvances.log.before⟩

/-! ## The bundles -/

theorem output_append (rows more : List (List CString)) :
    (output (rows ++ more)).chars = (output rows).chars ++ (output more).chars := by
  induction rows with
  | nil => rfl
  | cons row rows ih =>
    change (poolLine row).chars ++ (output (rows ++ more)).chars = _
    rw [ih, ← List.append_assoc]
    rfl

theorem bundleOf_front {source later : List PoolRow} (h : source <+: later) :
    (bundleOf source).chars <+: (bundleOf later).chars := by
  obtain ⟨more, rfl⟩ := h
  rw [bundleOf, bundleOf, List.map_append, output_append]
  exact List.prefix_append _ _

theorem Ledger.Bundled.source (h : l.Bundled) {j : ℕ} {row : Row}
    (hRow : l.blocks.tail[j]? = some row) :
    ∃ source, l.sources[j]? = some source ∧ row.blockData = bundleOf source := by
  obtain ⟨hj, rfl⟩ := List.getElem?_eq_some_iff.mp hRow
  have hj' : j < l.sources.length := h.bundles.length_eq ▸ hj
  exact ⟨_, List.getElem?_eq_getElem hj', (List.forall₂_iff_get.mp h.bundles).2 j hj hj'⟩

/-- From empty databases, through any choices and any number of new starts: `blocks` is a tree and
keeps its rows, the pool keeps its rows in their order, each bundle begins with the bundle of the block
before, and a transaction that is in the pool is included in every block that is stored later. -/
theorem sessions_grow (platform : Platform) (sha384 : Hash) (sqlite : Sqlite)
    (hInserts : platform.Inserts) (stdin : List Byte) (s t : Session)
    (hs : (Session.first stdin).Leads platform sha384 sqlite
      (Session.Meets platform sha384 sqlite) s)
    (ht : s.Leads platform sha384 sqlite (Session.Meets platform sha384 sqlite) t) :
    (t.ledger.blocks = [] ∨ Tree sha384 t.ledger.blocks) ∧
      s.ledger.blocks <+: t.ledger.blocks ∧ s.ledger.pool.rows <+: t.ledger.pool.rows ∧
      (∀ (i j : ℕ) (row row' : Row), i ≤ j → t.ledger.blocks.tail[i]? = some row →
        t.ledger.blocks.tail[j]? = some row' → row.blockData.chars <+: row'.blockData.chars) ∧
      ∀ (j : ℕ) (row : Row), s.ledger.blocks.tail.length ≤ j → t.ledger.blocks.tail[j]? = some row →
        ∀ txid ∈ s.ledger.pool.rows.map PoolRow.txid, t.ledger.Includes j txid := by
  obtain ⟨hSound, -, -⟩ := hs.later hInserts sound_empty
  obtain ⟨hSound', hBlocks, hLog⟩ := ht.later hInserts hSound
  refine ⟨hSound'.tree, hBlocks, hLog.entries, ?_, ?_⟩
  · intro i j row row' hij hRow hRow'
    obtain ⟨source, hSource, hData⟩ := hSound'.bundled.source hRow
    obtain ⟨source', hSource', hData'⟩ := hSound'.bundled.source hRow'
    rw [hData, hData']
    exact bundleOf_front (hSound'.ordered.prefix_of_le hSource hSource' hij)
  · intro j row hLater hRow txid hTxid
    obtain ⟨source, hSource, hData⟩ := hSound'.bundled.source hRow
    obtain ⟨pooled, hPooled, rfl⟩ := List.mem_map.mp hTxid
    rw [hSound.bundled.bundles.length_eq] at hLater
    exact ⟨row, source, hRow, hSource, hData,
      List.mem_map_of_mem (hLog.mem_copy hSource hLater hPooled)⟩

/-! ## Two blocks with one transaction -/

theorem inserts_onesPlatform : onesPlatform.Inserts := by
  intro sql rows _
  change rows <+: (execInsert sql rows).1
  unfold execInsert
  split
  · exact List.prefix_rfl
  · exact (KeyedTables.grows_insertAbsent rows _).kept

theorem oneInsert_alice : alice.OneInsert onesPlatform := by
  have hAll : (alice.sql onesPlatform).all (fun sql => (SqlText.statement sql.chars).isSome) =
      true := by
    unfold Submission.sql insertSql insertColumns
    rw [CString.ascii_ofList]
    decide +kernel
  intro sql hSql
  rw [Option.mem_def.mp hSql] at hAll
  exact hAll

/-- The program is started, 5 is typed, and a block is mined. -/
theorem leads_mine (s : Session) (o : Outside)
    (hStep : s.ledger.step platform sha384 sqlite (.mine o.call) = some l')
    (hSucceeds : (o.call.onPool s.ledger.pool).Succeeds sha384 sqlite s.ledger.blocks) :
    s.Leads platform sha384 sqlite (Session.Meets platform sha384 sqlite)
      ⟨5, none, [], s.wallet, l'⟩ := by
  have hScanned : ({ s with choice := 0, result := none, stdin := [53] } : Session).scanned =
      ⟨5, none, [], s.wallet, s.ledger⟩ := rfl
  refine .tail (.single (.again s [53])) (.turn o ?_ ?_)
  · rw [hScanned]
    exact hSucceeds
  · rw [Session.turn, hScanned]
    change (s.ledger.step platform sha384 sqlite (.mine o.call)).bind _ = _
    rw [hStep]
    rfl

theorem leads_alice (h : Ledger.empty.step onesPlatform sha384 sqlite
    (.createTransaction alice) = some l') :
    (Session.first (51 :: alice.stdin)).Leads onesPlatform sha384 sqlite
      (Session.Meets onesPlatform sha384 sqlite) ⟨3, none, alice.rest, [], l'⟩ := by
  have hScanned : (Session.first (51 :: alice.stdin)).scanned =
      ⟨3, none, alice.stdin, [], .empty⟩ := by
    have hChoice : scanfInt (51 :: alice.stdin) 0 = 3 := by decide +kernel
    have hRest : scanfRest (51 :: alice.stdin) = alice.stdin := by decide +kernel
    rw [Session.scanned, Session.first, hChoice, hRest]
  refine .single (.turn aliceOutside ?_ ?_)
  · rw [hScanned]
    exact oneInsert_alice
  · have hSubmitted : aliceOutside.submitted ⟨3, none, alice.stdin, [], .empty⟩ = alice := rfl
    have hItem : item 3 = .createTransaction := rfl
    rw [Session.turn, hScanned, hItem]
    simp only [Session.select, hSubmitted, h, Option.bind_eq_bind, Option.bind_some]
    rfl

theorem lengthHash_mined (data : List Byte) : (lengthHash data).Mined := rfl

theorem step_alice : Ledger.empty.step onesPlatform lengthHash Sqlite.first
    (.createTransaction alice) = some ⟨some [aliceRow], [], []⟩ := by
  simp only [Ledger.step, Ledger.empty, createTransaction_alice, Option.bind_eq_bind,
    Option.bind_some]
  rfl

theorem sessions_grow_alice :
    ∃ s t, (Session.first (51 :: alice.stdin)).Leads onesPlatform lengthHash Sqlite.first
        (Session.Meets onesPlatform lengthHash Sqlite.first) s ∧
      s.Leads onesPlatform lengthHash Sqlite.first
        (Session.Meets onesPlatform lengthHash Sqlite.first) t ∧
      s.ledger.pool.rows = [aliceRow] ∧ t.ledger.blocks.tail.length = 2 ∧
      s.ledger.pool.rows <+: t.ledger.pool.rows ∧ ∀ (j : ℕ) (row : Row),
        s.ledger.blocks.tail.length ≤ j → t.ledger.blocks.tail[j]? = some row →
          ∀ txid ∈ s.ledger.pool.rows.map PoolRow.txid, t.ledger.Includes j txid := by
  obtain ⟨l, hRun, hData, -⟩ := run_alice
  obtain ⟨l₁, hFirst, hRun⟩ := run_cons_eq_some.mp hRun
  obtain rfl := Option.some.inj (step_alice.symm.trans hFirst)
  obtain ⟨l₂, hSecond, hRun⟩ := run_cons_eq_some.mp hRun
  obtain ⟨l₃, hThird, hRun⟩ := run_cons_eq_some.mp hRun
  obtain rfl := Option.some.inj hRun
  have hCreate := leads_alice hFirst
  have hMine := leads_mine ⟨3, none, alice.rest, [], ⟨some [aliceRow], [], []⟩⟩ aliceOutside hSecond
    (Call.succeeds_of_easy lengthHash_mined _ short_nil)
  obtain ⟨hSound, -⟩ :=
    Session.Leads.later inserts_onesPlatform sound_empty (hCreate.trans hMine)
  have hAgain := leads_mine ⟨5, none, [], [], l₂⟩ { aliceOutside with call := callAt 1005 } hThird
    (Call.succeeds_of_easy lengthHash_mined _ hSound.bundled.short)
  obtain ⟨-, -, hPool, -, hIncludes⟩ := sessions_grow onesPlatform lengthHash Sqlite.first
    inserts_onesPlatform _ _ _ hCreate (hMine.trans hAgain)
  refine ⟨_, _, hCreate, hMine.trans hAgain, rfl, ?_, hPool, hIncludes⟩
  have hLength := congrArg List.length hData
  rwa [List.length_map] at hLength

/-! ## The wallet -/

/-- The pair that a round leaves: `validate_key_pair` wipes the private key where it fails. -/
def RoundCalls.publicKey (calls : RoundCalls) : Region 1312 := (generateKeyPair calls.key).2.1

def RoundCalls.privateKey (calls : RoundCalls) : Region 2528 :=
  (validateKeyPair calls.test (generateKeyPair calls.key).2.2).2

def RoundCalls.address (sha3 : Hash) (calls : RoundCalls) : CString :=
  base58 (generateNewAddress sha3 calls.hash calls.publicKey).2.bytes

theorem row_round (sha3 : Hash) (calls : RoundCalls) : (calls.round sha3).row =
    ⟨some (calls.address sha3), some (keyText calls.privateKey.bytes),
      some (keyText calls.publicKey.bytes)⟩ := rfl

theorem tested_row (sha3 : Hash) (calls : RoundCalls)
    (uninitPublic uninitPrivate : ∀ size, Region size) :
    (calls.round sha3).row.tested uninitPublic uninitPrivate =
      some (calls.publicKey.bytes, calls.privateKey.bytes) := by
  simp only [row_round, WalletRow.tested, testedKey_keyText, Option.bind_eq_bind, Option.bind_some]
  rfl

theorem keys_row (sha3 : Hash) (calls : RoundCalls) :
    ∃ walletKeys, (calls.round sha3).row.keys = some walletKeys ∧
      PublicKey.bin walletKeys.publicKey = calls.publicKey.bytes ∧
      PrivateKey.bin walletKeys.privateKey = calls.privateKey.bytes := by
  refine ⟨_, rfl, ?_, ?_⟩
  · have hTake := CString.take_of_length_le (length_keyText calls.publicKey.bytes).le
    have hBin := bin_keyField calls.publicKey.length_bytes
    rw [calls.publicKey.length_bytes] at hTake
    rwa [hTake] at hBin
  · have hTake := CString.take_of_length_le (length_keyText calls.privateKey.bytes).le
    have hBin := bin_keyField calls.privateKey.length_bytes
    rw [calls.privateKey.length_bytes] at hTake
    rwa [hTake] at hBin

/-- The rounds whose rows the turn inserts in `wallet` -/
def Turn.rounds (turn : Turn) : List RoundCalls :=
  match turn.chosen with
  | .generateAddress =>
    insertingRounds turn.outside.opened turn.outside.created turn.outside.rounds
  | _ => []

theorem select_wallet {i : Item} (h : s.select platform sha384 sqlite o i = some (.goesOn t)) :
    t.wallet = s.wallet ++
      (Turn.mk i o).rounds.map fun calls => (calls.round platform.sha3).row := by
  have hSame : s.wallet = s.wallet ++
      ([] : List RoundCalls).map fun calls => (calls.round platform.sha3).row :=
    (List.append_nil _).symm
  cases i with
  | generateAddress =>
    obtain ⟨s', hRounds, h⟩ := Option.bind_eq_some_iff.mp h
    cases h
    obtain rfl := generateAddress_eq hRounds
    rfl
  | createTransaction | mine | printBlocks | verifyTransaction | verifyBlock | verifyBlockchain =>
    obtain ⟨_, -, h⟩ := Option.bind_eq_some_iff.mp h
    cases h
    exact hSame
  | printWallet | printPool | other =>
    cases h
    exact hSame
  | exit => cases h

theorem Session.Takes.wallet (h : s.Takes platform sha384 sqlite meets turns t) :
    t.wallet = s.wallet ++
      (turns.flatMap Turn.rounds).map fun calls => (calls.round platform.sha3).row := by
  induction h with
  | refl => exact (List.append_nil _).symm
  | turn _ o _ hTurn ih =>
    rw [select_wallet hTurn, List.flatMap_append, List.flatMap_singleton, List.map_append,
      ← List.append_assoc, ← ih]
    rfl
  | again _ stdin ih => exact ih

theorem mapM_tested (sha3 : Hash) (rounds : List RoundCalls)
    (uninitPublic uninitPrivate : ∀ size, Region size) :
    (rounds.map fun calls => (calls.round sha3).row).mapM
        (WalletRow.tested uninitPublic uninitPrivate) =
      some (rounds.map fun calls => (calls.publicKey.bytes, calls.privateKey.bytes)) := by
  induction rounds with
  | nil => rfl
  | cons calls rounds ih =>
    rw [List.map_cons, List.mapM_cons, tested_row, ih]
    rfl

theorem exists_generated (platform : Platform) (o : Outside) (rounds : List RoundCalls)
    (hWallet : s.wallet = rounds.map fun calls => (calls.round platform.sha3).row) :
    ∃ t, s.generateAddress platform o = some t := by
  obtain ⟨returned, hRounds⟩ :=
    exists_generateAddress platform.sha3 o.opened o.created o.rounds o.hWallet
  have hTests : ∃ tests, testKeysInWallet o.reopened o.prepared o.uninitPublic o.uninitPrivate
      (s.wallet ++ (insertingRounds o.opened o.created o.rounds).map fun calls =>
        (calls.round platform.sha3).row) = some tests := by
    rw [hWallet, ← List.map_append, testKeysInWallet, mapM_tested]
    split_ifs <;> exact ⟨_, rfl⟩
  obtain ⟨tests, hTests⟩ := hTests
  rw [Session.generateAddress, hRounds]
  simp only [Option.bind_eq_bind, Option.bind_some, List.map_map]
  split
  · exact ⟨_, Option.bind_eq_some_iff.mpr ⟨tests, hTests, rfl⟩⟩
  · exact ⟨_, rfl⟩

def generateTurn : Turn := ⟨.generateAddress, aliceOutside⟩

theorem rounds_generateTurn : generateTurn.rounds = [aliceOutside.rounds 0] := by
  simp [Turn.rounds, generateTurn, insertingRounds, aliceOutside, List.ofFn_succ]

/-- The program is started, 1 is typed, and of the five pairs one is inserted. -/
theorem exists_takes_wallet :
    ∃ s, (Session.first [49]).Takes onesPlatform lengthHash Sqlite.first (fun _ _ _ => True)
        [generateTurn] s ∧ s.wallet.length = 1 := by
  have hScanned : (Session.first [49]).scanned = ⟨1, none, [], [], .empty⟩ := rfl
  obtain ⟨s, hs⟩ :=
    exists_generated (s := ⟨1, none, [], [], .empty⟩) onesPlatform aliceOutside [] rfl
  have hItem : item 1 = .generateAddress := rfl
  have hTurn : (Session.first [49]).turn onesPlatform lengthHash Sqlite.first aliceOutside =
      some (.goesOn s) := by
    rw [Session.turn, hScanned, hItem]
    simp only [Session.select, hs, Option.bind_eq_bind, Option.bind_some]
    rfl
  have hTakes : (Session.first [49]).Takes onesPlatform lengthHash Sqlite.first
      (fun _ _ _ => True) [generateTurn] s := .turn .refl aliceOutside trivial hTurn
  refine ⟨s, hTakes, ?_⟩
  rw [hTakes.wallet, List.flatMap_singleton, rounds_generateTurn]
  rfl

/-- From an empty wallet, through any choices and any number of new starts: `test_keys_in_wallet`
decodes exactly the pairs of the rounds that `generate_address` took, no address is NULL, and the keys
that `sign_transaction` gets for a sender are those of a round whose address is the sender. If nothing
failed in the round, the address is the one of the public key, and the private key is its own. -/
theorem wallet_keys (platform : Platform) (sha384 : Hash) (sqlite : Sqlite)
    (meets : Session → Outside → Item → Prop) (stdin : List Byte) (turns : List Turn) (s : Session)
    (hs : (Session.first stdin).Takes platform sha384 sqlite meets turns s)
    (uninitPublic uninitPrivate : ∀ size, Region size) :
    testKeysInWallet true true uninitPublic uninitPrivate s.wallet =
      some (0, (turns.flatMap Turn.rounds).map fun calls =>
        (calls.publicKey.bytes, calls.privateKey.bytes)) ∧
    ∀ sender, lookUp sender s.wallet = .absent ∨
      ∃ row walletKeys, lookUp sender s.wallet = .found row ∧ row.keys = some walletKeys ∧
        ∃ calls ∈ turns.flatMap Turn.rounds, calls.address platform.sha3 = sender ∧
          PublicKey.bin walletKeys.publicKey = calls.publicKey.bytes ∧
          PrivateKey.bin walletKeys.privateKey = calls.privateKey.bytes ∧
          (calls.Succeed → sender = base58 (platform.sha3 calls.publicKey.bytes).bytes ∧
            calls.publicKey = calls.key.publicKey ∧ calls.privateKey = calls.key.privateKey) := by
  have hWallet := hs.wallet
  rw [Session.first, List.nil_append] at hWallet
  constructor
  · rw [hWallet, testKeysInWallet, if_neg (by decide), if_neg (by decide), mapM_tested]
    rfl
  · intro sender
    rcases lookUp_cases sender s.wallet with hAbsent | ⟨row, hComes, hFound⟩
    · exact .inl hAbsent
    right
    obtain ⟨before, later, hRows, -⟩ := hComes
    have hMem : row ∈ s.wallet := hRows ▸ List.mem_append_right _ List.mem_cons_self
    obtain ⟨calls, hCalls, rfl⟩ := List.mem_map.mp (hWallet ▸ hMem)
    rcases hFound with ⟨hNull, -⟩ | ⟨hAddress, hFound⟩
    · cases hNull
    obtain rfl := Option.some.inj hAddress
    obtain ⟨walletKeys, hKeys, hPublic, hPrivate⟩ := keys_row platform.sha3 calls
    refine ⟨_, walletKeys, hFound, hKeys, calls, hCalls, rfl, hPublic, hPrivate, ?_⟩
    intro hSucceed
    obtain ⟨-, -, -, hRow⟩ := (tested_iff platform.sha3 calls).mpr hSucceed
    refine ⟨Option.some.inj (congrArg WalletRow.address hRow), ?_, ?_⟩
    · simp [RoundCalls.publicKey, generateKeyPair, hSucceed.keySig, hSucceed.keypair]
    · simp [RoundCalls.privateKey, generateKeyPair, validateKeyPair, hSucceed.keySig,
        hSucceed.keypair, hSucceed.testSig, hSucceed.sign, hSucceed.verify]

theorem wallet_keys_pair :
    ∃ s, (Session.first [49]).Takes onesPlatform lengthHash Sqlite.first (fun _ _ _ => True)
        [generateTurn] s ∧
      [generateTurn].flatMap Turn.rounds = [aliceOutside.rounds 0] ∧
      testKeysInWallet true true .zeros .zeros s.wallet =
        some (0, ([generateTurn].flatMap Turn.rounds).map fun calls =>
          (calls.publicKey.bytes, calls.privateKey.bytes)) ∧
      ∀ sender, lookUp sender s.wallet = .absent ∨
        ∃ row walletKeys, lookUp sender s.wallet = .found row ∧ row.keys = some walletKeys ∧
          ∃ calls ∈ [generateTurn].flatMap Turn.rounds, calls.address onesPlatform.sha3 = sender ∧
            PublicKey.bin walletKeys.publicKey = calls.publicKey.bytes ∧
            PrivateKey.bin walletKeys.privateKey = calls.privateKey.bytes ∧
            (calls.Succeed → sender = base58 (onesPlatform.sha3 calls.publicKey.bytes).bytes ∧
              calls.publicKey = calls.key.publicKey ∧ calls.privateKey = calls.key.privateKey) := by
  obtain ⟨s, hs, -⟩ := exists_takes_wallet
  refine ⟨s, hs, ?_, wallet_keys onesPlatform lengthHash Sqlite.first _ [49] _ s hs .zeros .zeros⟩
  rw [List.flatMap_singleton, rounds_generateTurn]

end Manhattan.Chain
