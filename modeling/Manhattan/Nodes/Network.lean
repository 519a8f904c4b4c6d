import Manhattan.Library.Gossip
import Manhattan.Nodes.Tasks

/-! # A network of nodes

The client thread of one node exchanges tables with the server thread of another. A table that is
sent may be older than `nodes.db` when it arrives; as rows are only added, it is a front of it. What
the server thread saves is not merged by it, so that in an exchange only the client learns.
-/

namespace Manhattan.Nodes

open Library.CStrings Library.KeyedTables Library.Runs Library.Gossip

abbrev Network (ι : Type) := ι → State

/-- `request` and `reply` bring the first `count` rows of the sender. -/
inductive NetEvent (ι : Type)
  | request (client server : ι) (count : Nat)
  | reply (server client : ι) (count : Nat)
  | own (node : ι) (step : Step)

variable {ι : Type} [DecidableEq ι]

/-- `step` at a node -/
def Network.step (sqlite : Sqlite) (net : Network ι) (node : ι) (step : Step) :
    Option (Network ι) :=
  (step.take sqlite (net node)).map (Function.update net node)

/-- What a node takes on its own is no receipt. -/
def NetEvent.take (sqlite : Sqlite) (net : Network ι) : NetEvent ι → Option (Network ι)
  | request client server count =>
    net.step sqlite server (.serverReceive ((net client).nodesDb.take count))
  | reply server client count =>
    net.step sqlite client (.clientReceive ((net server).nodesDb.take count))
  | own _ (.serverReceive _) => none
  | own _ (.clientReceive _) => none
  | own node step => net.step sqlite node step

/-- Who takes from whom -/
def NetEvent.transfer : NetEvent ι → Option (ι × ι)
  | request client server _ => some (server, client)
  | reply server client _ => some (client, server)
  | own _ _ => none

/-- An exchange from the connection to the unlink, with nothing else in between -/
def exchangeTables (sqlite : Sqlite) (net : Network ι) (nodes : ι × ι) : Option (Network ι) :=
  let (client, server) := nodes
  run (NetEvent.take sqlite) net [
    .request client server (net client).nodesDb.length, .own server .serverSave,
    .reply server client (net server).nodesDb.length, .own client .clientSave,
    .own client .merge, .own client .unlink]

variable {sqlite : Sqlite} {net next : Network ι} {k : Key}

/-! ## Keys as they are read -/

/-- With the port that `sqlite3_column_int` reads -/
def Key.read (k : Key) : Key := (k.1, bindInt (columnInt (some k.2)))

theorem columnInt_bindInt (value : BitVec 32) : columnInt (some (bindInt value)) = value := by
  apply BitVec.eq_of_getLsbD_eq
  intro i hi
  have hWide : i < 64 := by omega
  simp only [columnInt, bindInt, Option.getD_some, BitVec.getLsbD_setWidth,
    BitVec.getLsbD_signExtend, hi, hWide, decide_true, Bool.true_and, if_true]

theorem Key.read_read (k : Key) : k.read.read = k.read := by
  rw [read, read, columnInt_bindInt]

theorem readKeys_eq (table : List Row) : readKeys table = Key.read '' keys Row.key table := by
  apply Set.ext
  intro k
  constructor
  · rintro ⟨row, hRow, rfl⟩
    exact ⟨row.key, ⟨row, hRow, rfl⟩, rfl⟩
  · rintro ⟨_, ⟨row, hRow, rfl⟩, rfl⟩
    exact ⟨row, hRow, rfl⟩

theorem read_mem_readKeys {table : List Row} (h : k ∈ readKeys table) : k.read = k := by
  obtain ⟨row, -, rfl⟩ := h
  exact Key.read_read row.key

theorem image_read_readKeys (table : List Row) : Key.read '' readKeys table = readKeys table := by
  apply Set.ext
  intro k
  constructor
  · rintro ⟨other, hOther, rfl⟩
    rwa [read_mem_readKeys hOther]
  · intro hk
    exact ⟨k, hk, read_mem_readKeys hk⟩

theorem readKeys_processNodesDb (received rows : List Row) :
    readKeys (processNodesDb sqlite received rows) = readKeys rows ∪ readKeys received := by
  rw [readKeys_eq, (grows_processNodesDb received rows).keys, Set.image_union, ← readKeys_eq]
  exact congrArg _ (image_read_readKeys received)

/-! ## Any order of steps -/

theorem Network.of_step {node : ι} {step : Step} (h : net.step sqlite node step = some next) :
    ∃ t, step.take sqlite (net node) = some t ∧ next = Function.update net node t := by
  obtain ⟨t, hTake, hNext⟩ := Option.map_eq_some_iff.mp h
  exact ⟨t, hTake, hNext.symm⟩

/-- Every event is a step at a node; what the step receives is in `nodes.db` at the other end. -/
theorem NetEvent.exists_step {event : NetEvent ι} (h : event.take sqlite net = some next) :
    ∃ node step, net.step sqlite node step = some next ∧
      ∀ k ∈ step.receives, ∃ other, event.transfer = some (node, other) ∧
        k ∈ readKeys (net other).nodesDb := by
  cases event with
  | request client server count =>
    refine ⟨server, _, h, ?_⟩
    rintro k ⟨row, hRow, hKey⟩
    exact ⟨client, rfl, row, List.mem_of_mem_take hRow, hKey⟩
  | reply server client count =>
    refine ⟨client, _, h, ?_⟩
    rintro k ⟨row, hRow, hKey⟩
    exact ⟨server, rfl, row, List.mem_of_mem_take hRow, hKey⟩
  | own node step =>
    cases step with
    | serverReceive table | clientReceive table => cases h
    | serverSave | clientSave | merge | unlink =>
      refine ⟨node, _, h, ?_⟩
      rintro k ⟨⟩

/-- What a node holds anywhere is among `held`. -/
def Known (held : ι → Set Key) (net : Network ι) : Prop :=
  ∀ i k, (net i).Holds k → k.read ∈ held i

theorem Known.take {held : ι → Set Key} (h : Known held net) {event : NetEvent ι}
    (hTake : event.take sqlite net = some next) :
    Known (event.transfer.elim held (pull held)) next := by
  obtain ⟨node, step, hStep, hReceives⟩ := NetEvent.exists_step hTake
  obtain ⟨t, hTaken, rfl⟩ := Network.of_step hStep
  have hMore : ∀ i, held i ⊆ event.transfer.elim held (pull held) i := by
    intro i
    cases event.transfer with
    | none => exact Set.Subset.rfl
    | some nodes => exact pull_subset nodes
  intro i k hk
  obtain rfl | hNode := eq_or_ne i node
  · rw [Function.update_self] at hk
    obtain hOld | hNew := hk.of_take hTaken
    · exact hMore i (h i k hOld)
    · obtain ⟨other, hTransfer, hThere⟩ := hReceives k hNew
      rw [readKeys_eq] at hThere
      obtain ⟨k', hStored, rfl⟩ := hThere
      rw [hTransfer, Key.read_read]
      exact (mem_pull _).mpr (.inr ⟨rfl, h other k' (.inl hStored)⟩)
  · rw [Function.update_of_ne hNode] at hk
    exact hMore i (h i k hk)

theorem Known.run {held : ι → Set Key} (h : Known held net) {events : List (NetEvent ι)}
    (hRun : run (NetEvent.take sqlite) net events = some next) :
    Known (pullAll held (events.filterMap NetEvent.transfer)) next := by
  induction events generalizing net held with
  | nil =>
    obtain rfl := Option.some.inj hRun
    exact h
  | cons event events ih =>
    obtain ⟨middle, hFirst, hRest⟩ := run_cons_eq_some.mp hRun
    have hNext := ih (h.take hFirst) hRest
    rw [List.filterMap_cons]
    cases hTransfer : event.transfer with
    | none =>
      rw [hTransfer] at hNext
      exact hNext
    | some nodes =>
      rw [hTransfer] at hNext
      exact hNext

/-- In any order of the steps of all nodes, a key in the table of one was in the table of another at
the start, and the transfers lead from there. -/
theorem network_provenance (sqlite : Sqlite) (tables : ι → List Row)
    (events : List (NetEvent ι)) (net : Network ι)
    (hRun : run (NetEvent.take sqlite) (fun i => start (tables i)) events = some net) (i : ι)
    (k : Key) (hk : k ∈ readKeys (net i).nodesDb) :
    ∃ source, k ∈ readKeys (tables source) ∧
      Reaches (events.filterMap NetEvent.transfer) source i := by
  have hStart : Known (fun i => readKeys (tables i)) fun i => start (tables i) := by
    intro i k hHolds
    obtain hOld | hNothing := (explained_start (tables i)).known k hHolds
    · dsimp only
      rw [readKeys_eq]
      exact ⟨k, hOld, rfl⟩
    · cases hNothing
  rw [readKeys_eq] at hk
  obtain ⟨k', hStored, rfl⟩ := hk
  exact mem_pullAll.mp (hStart.run hRun i k' (.inl hStored))

theorem network_provenance_reply :
    let tables := fun i : Bool => if i then [peerRow localhost 5000] else []
    let events : List (NetEvent Bool) := [.reply true false 1, .own false .clientSave,
      .own false .merge, .own false .unlink]
    ∃ net, run (NetEvent.take .reference) (fun i => start (tables i)) events = some net ∧
      ∃ source, (localhost, 5000) ∈ readKeys (tables source) ∧
        Reaches (events.filterMap NetEvent.transfer) source false := by
  intro tables events
  refine ⟨_, rfl, network_provenance .reference tables events _ rfl false _ ?_⟩
  change _ ∈ readKeys (processNodesDb .reference [peerRow localhost 5000] [])
  rw [readKeys_processNodesDb]
  exact .inr ⟨peerRow localhost 5000, List.mem_cons_self, rfl⟩

/-! ## One exchange after the other -/

def Idle (net : Network ι) : Prop := ∀ i, (net i).server = none ∧ (net i).client = .idle

theorem Idle.update (h : Idle net) {node : ι} {t : State} (hServer : t.server = none)
    (hClient : t.client = .idle) : Idle (Function.update net node t) :=
  (Function.forall_update_iff net fun _ s => s.server = none ∧ s.client = .idle).mpr
    ⟨⟨hServer, hClient⟩, fun i _ => h i⟩

theorem Network.step_of_take {node : ι} {step : Step} {t : State}
    (h : step.take sqlite (net node) = some t) :
    net.step sqlite node step = some (Function.update net node t) := by
  rw [Network.step, h, Option.map_some]

theorem Network.step_update {node : ι} {step : Step} {s t : State}
    (h : step.take sqlite s = some t) :
    Network.step sqlite (Function.update net node s) node step =
      some (Function.update net node t) := by
  rw [Network.step, Function.update_self, h, Option.map_some, Function.update_idem]

theorem run_request (sqlite : Sqlite) (client : ι) {server : ι}
    (hServer : (net server).server = none) (count : Nat) :
    run (NetEvent.take sqlite) net [.request client server count, .own server .serverSave] =
      some (Function.update net server
        { net server with nodes_Db := some ((net client).nodesDb.take count) }) := by
  have hReceive : (Step.serverReceive ((net client).nodesDb.take count)).take sqlite
      (net server) = some { net server with
        server := some ((net client).nodesDb.take count) } := by
    simp only [Step.take, hServer]
  have hNode : { net server with nodes_Db := some ((net client).nodesDb.take count) } =
      { net server with
        nodes_Db := some ((net client).nodesDb.take count), server := none } := by
    rw [← hServer]
  rw [hNode]
  exact run_cons_eq_some.mpr ⟨_, Network.step_of_take hReceive,
    run_cons_eq_some.mpr ⟨_, Network.step_update rfl, rfl⟩⟩

theorem run_reply (sqlite : Sqlite) {client : ι} (server : ι)
    (hClient : (net client).client = .idle) (count : Nat) :
    run (NetEvent.take sqlite) net [.reply server client count, .own client .clientSave,
      .own client .merge, .own client .unlink] =
      some (Function.update net client { net client with
        nodesDb := processNodesDb sqlite ((net server).nodesDb.take count) (net client).nodesDb,
        nodes_Db := none }) := by
  have hReceive : (Step.clientReceive ((net server).nodesDb.take count)).take sqlite
      (net client) = some { net client with
        client := .received ((net server).nodesDb.take count) } := by
    simp only [Step.take, hClient]
  have hNode : { net client with
      nodesDb := processNodesDb sqlite ((net server).nodesDb.take count) (net client).nodesDb,
      nodes_Db := none } = { net client with
        nodesDb := processNodesDb sqlite ((net server).nodesDb.take count) (net client).nodesDb,
        nodes_Db := none, client := .idle } := by
    rw [← hClient]
  rw [hNode]
  exact run_cons_eq_some.mpr ⟨_, Network.step_of_take hReceive, run_cons_eq_some.mpr
    ⟨_, Network.step_update rfl, run_cons_eq_some.mpr ⟨_, Network.step_update rfl,
      run_cons_eq_some.mpr ⟨_, Network.step_update rfl, rfl⟩⟩⟩⟩

theorem exists_request (sqlite : Sqlite) (hIdle : Idle net) (client server : ι) :
    ∃ middle, run (NetEvent.take sqlite) net [.request client server (net client).nodesDb.length,
        .own server .serverSave] = some middle ∧ Idle middle ∧
      ∀ i, (middle i).nodesDb = (net i).nodesDb := by
  have hRun := run_request sqlite client (hIdle server).1 (net client).nodesDb.length
  rw [List.take_length] at hRun
  refine ⟨_, hRun, hIdle.update (hIdle server).1 (hIdle server).2, ?_⟩
  exact (Function.forall_update_iff net fun i s => s.nodesDb = (net i).nodesDb).mpr
    ⟨rfl, fun _ _ => rfl⟩

theorem exists_reply (sqlite : Sqlite) (hIdle : Idle net) (server client : ι) :
    ∃ next, run (NetEvent.take sqlite) net [.reply server client (net server).nodesDb.length,
        .own client .clientSave, .own client .merge, .own client .unlink] = some next ∧ Idle next ∧
      (fun i => readKeys (next i).nodesDb) =
        pull (fun i => readKeys (net i).nodesDb) (client, server) := by
  have hRun := run_reply sqlite server (hIdle client).2 (net server).nodesDb.length
  rw [List.take_length] at hRun
  refine ⟨_, hRun, hIdle.update (hIdle client).1 (hIdle client).2, ?_⟩
  funext i
  obtain rfl | hi := eq_or_ne i client
  · rw [Function.update_self, pull, Function.update_self, readKeys_processNodesDb]
  · rw [Function.update_of_ne hi, pull, Function.update_of_ne hi]

theorem exists_exchange (sqlite : Sqlite) (hIdle : Idle net) (nodes : ι × ι) :
    ∃ next, exchangeTables sqlite net nodes = some next ∧ Idle next ∧
      (fun i => readKeys (next i).nodesDb) = pull (fun i => readKeys (net i).nodesDb) nodes := by
  obtain ⟨client, server⟩ := nodes
  obtain ⟨middle, hFirst, hMiddle, hSame⟩ := exists_request sqlite hIdle client server
  obtain ⟨next, hLast, hNext, hHeld⟩ := exists_reply sqlite hMiddle server client
  rw [hSame server] at hLast
  refine ⟨next, run_append_eq_some.mpr ⟨middle, hFirst, hLast⟩, hNext, ?_⟩
  simpa only [hSame] using hHeld

theorem exists_exchanges (sqlite : Sqlite) (hIdle : Idle net) (exchanges : List (ι × ι)) :
    ∃ next, exchanges.foldlM (exchangeTables sqlite) net = some next ∧ Idle next ∧
      (fun i => readKeys (next i).nodesDb) =
        pullAll (fun i => readKeys (net i).nodesDb) exchanges := by
  induction exchanges generalizing net with
  | nil => exact ⟨net, rfl, hIdle, rfl⟩
  | cons nodes exchanges ih =>
    obtain ⟨middle, hExchange, hMiddle, hHeld⟩ := exists_exchange sqlite hIdle nodes
    obtain ⟨next, hRest, hNext, hHeld'⟩ := ih hMiddle
    refine ⟨next, ?_, hNext, ?_⟩
    · rw [List.foldlM_cons, hExchange]
      exact hRest
    · rw [hHeld', hHeld, pullAll, pullAll, List.foldl_cons]

/-- Exchanges that do not overlap can always be made, and then a node knows exactly the keys of the
nodes from which a path of exchanges leads to it, each from the server to the client. -/
theorem exchanges_reach (sqlite : Sqlite) (tables : ι → List Row) (exchanges : List (ι × ι)) :
    ∃ net, exchanges.foldlM (exchangeTables sqlite) (fun i => start (tables i)) = some net ∧
      ∀ i k, k ∈ readKeys (net i).nodesDb ↔
        ∃ source, k ∈ readKeys (tables source) ∧ Reaches exchanges source i := by
  have hIdle : Idle fun i => start (tables i) := fun _ => ⟨rfl, rfl⟩
  obtain ⟨net, hRun, -, hHeld⟩ := exists_exchanges sqlite hIdle exchanges
  refine ⟨net, hRun, fun i k => ?_⟩
  rw [congrFun hHeld i]
  exact mem_pullAll

end Manhattan.Nodes
