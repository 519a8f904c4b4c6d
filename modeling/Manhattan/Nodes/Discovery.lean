import Manhattan.Nodes.Network

/-! # What a node can come to know

A client connects to the address of a random row of its own `nodes.db`. Its server is reached by
others, but a table that it saves is only merged by the client thread, after an exchange of its own.
With the addresses that `thread_tasks` inserts, this decides which rows can ever come to a node.
-/

namespace Manhattan.Nodes

open Library.CStrings Library.KeyedTables Library.Runs Library.Gossip

/-! ## Addresses -/

/-- Whose server a node reaches under an address, and the replies that its `get_public_ip` may
get. -/
structure Internet (ι : Type) where
  reach : ι → Key → Option ι
  replies : ι → Set CString

variable {ι : Type}

namespace Internet

variable (internet : Internet ι) (tables : ι → List Row)

/-- What a node has from the start or inserts itself -/
def given (i : ι) : Set Key := readKeys (tables i) ∪ ownKey '' internet.replies i

abbrev Learns : ι → Key → Prop := Library.Gossip.Learns internet.reach (internet.given tables)

end Internet

variable {internet : Internet ι} {sqlite : Sqlite} {tables : ι → List Row} {s t : State} {i : ι}
  {k : Key}

/-! ## One node -/

/-- `k` may be in a table that is sent to the node. -/
def Internet.Sends (internet : Internet ι) (tables : ι → List Row) (i : ι) (k : Key) : Prop :=
  internet.Learns tables i k ∨ ∃ other address, internet.Learns tables other address ∧
    internet.reach other address = some i ∧ internet.Learns tables other k

/-- The node reaches some node. -/
def Internet.GoesOut (internet : Internet ι) (tables : ι → List Row) (i : ι) : Prop :=
  ∃ address other, internet.Learns tables i address ∧ internet.reach i address = some other

structure Internet.Explains (internet : Internet ι) (tables : ι → List Row) (i : ι) (s : State) :
    Prop where
  stored : ∀ k ∈ readKeys s.nodesDb, internet.Learns tables i k
  waiting : ∀ k ∈ s.waiting, internet.Sends tables i k
  withServer : ∀ k ∈ s.withServer, internet.Sends tables i k
  withClient : ∀ k ∈ s.withClient, internet.Learns tables i k
  goesOut : s.client ≠ .idle → internet.GoesOut tables i

/-- What the node receives is what may be sent to it. -/
def Internet.Brings (internet : Internet ι) (tables : ι → List Row) (i : ι) : Step → Prop
  | .serverReceive table => ∀ k ∈ readKeys table, internet.Sends tables i k
  | .clientReceive table =>
    (∀ k ∈ readKeys table, internet.Learns tables i k) ∧ internet.GoesOut tables i
  | _ => True

theorem Internet.Sends.learns (h : internet.Sends tables i k) (hOut : internet.GoesOut tables i) :
    internet.Learns tables i k := by
  obtain hOwn | ⟨other, address, hAddress, hReach, hThere⟩ := h
  · exact hOwn
  · obtain ⟨out, another, hKnown, hOther⟩ := hOut
    exact .isGiven hAddress hReach hKnown hOther hThere

theorem notMem_readKeys_nil (k : Key) : k ∉ readKeys [] := by
  rintro ⟨row, hRow, -⟩
  cases hRow

theorem Internet.Explains.take (h : internet.Explains tables i s) {step : Step}
    (hBrings : internet.Brings tables i step) (hTake : step.take sqlite s = some t) :
    internet.Explains tables i t := by
  obtain ⟨hStored, hWaiting, hServer, hClient, hOut⟩ := h
  cases Step.takes_of_take hTake with
  | serverReceive hFree => exact ⟨hStored, hWaiting, hBrings, hClient, hOut⟩
  | serverSave hTable =>
    refine ⟨hStored, ?_, fun k hk => absurd hk (notMem_readKeys_nil k), hClient, hOut⟩
    rw [State.withServer, hTable] at hServer
    exact hServer
  | clientReceive hIdle => exact ⟨hStored, hWaiting, hServer, hBrings.1, fun _ => hBrings.2⟩
  | clientSave hTable =>
    have hGoes := hOut (by rw [hTable]; rintro ⟨⟩)
    refine ⟨hStored, ?_, hServer, fun k hk => absurd hk (Set.notMem_empty k), fun _ => hGoes⟩
    rw [State.withClient, hTable] at hClient
    exact fun k hk => .inl (hClient k hk)
  | @merge table hSaved hFile =>
    have hGoes := hOut (by rw [hSaved]; rintro ⟨⟩)
    rw [State.waiting, hFile] at hWaiting
    refine ⟨?_, ?_, hServer, fun k hk => absurd hk (Set.notMem_empty k), fun _ => hGoes⟩
    · intro k hk
      have hEither : k ∈ readKeys (processNodesDb sqlite table s.nodesDb) := hk
      rw [readKeys_processNodesDb] at hEither
      exact hEither.elim (hStored k) fun hNew => (hWaiting k hNew).learns hGoes
    · rw [State.waiting, hFile]
      exact hWaiting
  | mergeNothing hSaved hFile =>
    exact ⟨hStored, hWaiting, hServer, fun k hk => absurd hk (Set.notMem_empty k),
      fun h => absurd rfl h⟩
  | unlink hMerged =>
    exact ⟨hStored, fun k hk => absurd hk (notMem_readKeys_nil k), hServer,
      fun k hk => absurd hk (Set.notMem_empty k), fun h => absurd rfl h⟩

theorem explains_start (internet : Internet ι) (tables : ι → List Row) (i : ι) :
    internet.Explains tables i (start (tables i)) where
  stored _ hk := .given (.inl hk)
  waiting k hk := absurd hk (notMem_readKeys_nil k)
  withServer k hk := absurd hk (notMem_readKeys_nil k)
  withClient k hk := absurd hk (Set.notMem_empty k)
  goesOut h := absurd rfl h

theorem read_ownKey (response : CString) : (ownKey response).read = ownKey response := by
  rw [ownKey, Key.read, columnInt_bindInt]

theorem readKeys_tasksTurn (hExec : sqlite.ExecutesInsert) {response : CString}
    {rows rows' : List Row} (h : tasksTurn sqlite (some response) rows = some rows') :
    readKeys rows' = readKeys rows ∪ {ownKey response} := by
  rw [readKeys_eq, (grows_tasksTurn hExec h).keys, Set.image_union, Set.image_singleton,
    read_ownKey, ← readKeys_eq]

theorem Internet.Explains.tasks (hExec : sqlite.ExecutesInsert)
    (h : internet.Explains tables i s) {response : CString}
    (hReply : response ∈ internet.replies i)
    (hTake : (Event.tasks (some response)).take sqlite s = some t) : internet.Explains tables i t := by
  obtain ⟨rows', hTurn, rfl⟩ := Option.map_eq_some_iff.mp hTake
  obtain ⟨hStored, hWaiting, hServer, hClient, hOut⟩ := h
  refine ⟨?_, hWaiting, hServer, hClient, hOut⟩
  intro k hk
  have hEither : k ∈ readKeys rows' := hk
  rw [readKeys_tasksTurn hExec hTurn] at hEither
  obtain hOld | rfl := hEither
  · exact hStored k hOld
  · exact .given (.inr ⟨response, hReply, rfl⟩)

/-! ## All nodes -/

inductive ThreadEvent (ι : Type)
  | exchange (event : NetEvent ι)
  /-- `get_public_ip` returns a string. -/
  | tasks (node : ι) (response : CString)

variable [DecidableEq ι]

def ThreadEvent.take (sqlite : Sqlite) (net : Network ι) : ThreadEvent ι → Option (Network ι)
  | exchange event => event.take sqlite net
  | tasks node response =>
    ((Event.tasks (some response)).take sqlite (net node)).map (Function.update net node)

namespace Internet

variable (internet : Internet ι) (sqlite : Sqlite)

/-- `get_random_node` can read the address of the server from the client's own table. -/
def Dials (net : Network ι) (client server : ι) : Prop :=
  ∃ k ∈ readKeys (net client).nodesDb, internet.reach client k = some server

def Allows (net : Network ι) : ThreadEvent ι → Prop
  | .exchange (.request client server _) => internet.Dials net client server
  | .exchange (.reply server client _) => internet.Dials net client server
  | .exchange (.own _ _) => True
  | .tasks node response => response ∈ internet.replies node

inductive Turns : Network ι → Network ι → Prop
  | turn {net next : Network ι} (event : ThreadEvent ι) (allowed : internet.Allows net event)
      (taken : event.take sqlite net = some next) : Turns net next

def Leads : Network ι → Network ι → Prop := Relation.ReflTransGen (internet.Turns sqlite)

end Internet

variable {net next : Network ι}

theorem Internet.Explains.update (h : ∀ i, internet.Explains tables i (net i)) {node : ι}
    (hNode : internet.Explains tables node t) :
    ∀ i, internet.Explains tables i (Function.update net node t i) :=
  (Function.forall_update_iff net (internet.Explains tables)).mpr ⟨hNode, fun i _ => h i⟩

/-- What `NetEvent.take` has a node take is what may be sent to it. -/
theorem brings_of_allows (h : ∀ i, internet.Explains tables i (net i)) {event : NetEvent ι}
    (hAllows : internet.Allows net (.exchange event)) (hTake : event.take sqlite net = some next) :
    ∃ node step, net.step sqlite node step = some next ∧ internet.Brings tables node step := by
  cases event with
  | request client server count =>
    obtain ⟨address, hKnown, hReach⟩ := hAllows
    refine ⟨server, _, hTake, ?_⟩
    rintro k ⟨row, hRow, rfl⟩
    exact .inr ⟨client, address, (h client).stored _ hKnown, hReach,
      (h client).stored _ ⟨row, List.mem_of_mem_take hRow, rfl⟩⟩
  | reply server client count =>
    obtain ⟨address, hKnown, hReach⟩ := hAllows
    have hAddress := (h client).stored _ hKnown
    refine ⟨client, _, hTake, ?_, address, server, hAddress, hReach⟩
    rintro k ⟨row, hRow, rfl⟩
    exact .takes hAddress hReach ((h server).stored _ ⟨row, List.mem_of_mem_take hRow, rfl⟩)
  | own node step =>
    cases step with
    | serverReceive table | clientReceive table => cases hTake
    | serverSave | clientSave | merge | unlink => exact ⟨node, _, hTake, trivial⟩

theorem Internet.Turns.explains (hExec : sqlite.ExecutesInsert)
    (h : ∀ i, internet.Explains tables i (net i)) (hTurn : internet.Turns sqlite net next) :
    ∀ i, internet.Explains tables i (next i) := by
  obtain ⟨event, hAllows, hTake⟩ := hTurn
  cases event with
  | exchange event =>
    obtain ⟨node, step, hStep, hBrings⟩ := brings_of_allows h hAllows hTake
    obtain ⟨t, hTaken, rfl⟩ := Network.of_step hStep
    exact .update h ((h node).take hBrings hTaken)
  | tasks node response =>
    obtain ⟨t, hTaken, rfl⟩ := Option.map_eq_some_iff.mp hTake
    exact .update h ((h node).tasks hExec hAllows hTaken)

theorem Internet.Leads.explains (hExec : sqlite.ExecutesInsert)
    (h : ∀ i, internet.Explains tables i (net i)) (hLeads : internet.Leads sqlite net next) :
    ∀ i, internet.Explains tables i (next i) := by
  induction hLeads with
  | refl => exact h
  | tail _ hTurn ih => exact hTurn.explains hExec ih

/-! ## What can be learned, is -/

theorem readKeys_take {step : Step} (h : step.take sqlite s = some t) :
    readKeys s.nodesDb ⊆ readKeys t.nodesDb := by
  rw [readKeys_eq, readKeys_eq]
  exact Set.image_mono fun _ hk => stored_take hk h

theorem Internet.Turns.keeps (hExec : sqlite.ExecutesInsert)
    (h : internet.Turns sqlite net next) (i : ι) :
    readKeys (net i).nodesDb ⊆ readKeys (next i).nodesDb := by
  have hUpdate {node : ι} {t : State} (hNode : readKeys (net node).nodesDb ⊆ readKeys t.nodesDb) :
      readKeys (net i).nodesDb ⊆ readKeys (Function.update net node t i).nodesDb :=
    (Function.forall_update_iff net fun i s => readKeys (net i).nodesDb ⊆ readKeys s.nodesDb).mpr
      ⟨hNode, fun _ _ => Set.Subset.rfl⟩ i
  obtain ⟨event, -, hTake⟩ := h
  cases event with
  | exchange event =>
    obtain ⟨node, step, hStep, -⟩ := NetEvent.exists_step hTake
    obtain ⟨t, hTaken, rfl⟩ := Network.of_step hStep
    exact hUpdate (readKeys_take hTaken)
  | tasks node response =>
    obtain ⟨_, hTaken, rfl⟩ := Option.map_eq_some_iff.mp hTake
    obtain ⟨rows', hTurn, rfl⟩ := Option.map_eq_some_iff.mp hTaken
    refine hUpdate ?_
    change _ ⊆ readKeys rows'
    rw [readKeys_tasksTurn hExec hTurn]
    exact Set.subset_union_left

theorem Internet.Leads.keeps (hExec : sqlite.ExecutesInsert)
    (h : internet.Leads sqlite net next) (i : ι) :
    readKeys (net i).nodesDb ⊆ readKeys (next i).nodesDb := by
  induction h with
  | refl => exact Set.Subset.rfl
  | tail _ hTurn ih => exact ih.trans (hTurn.keeps hExec i)

/-- An event that is allowed, and then steps of a node on its own -/
theorem leads_run (first : NetEvent ι) (node : ι) (steps : List Step)
    (hAllows : internet.Allows net (.exchange first))
    (hRun : run (NetEvent.take sqlite) net (first :: steps.map (.own node)) = some next) :
    internet.Leads sqlite net next := by
  induction steps generalizing first net with
  | nil =>
    obtain ⟨middle, hFirst, hRest⟩ := run_cons_eq_some.mp hRun
    obtain rfl := Option.some.inj hRest
    exact .single (.turn (.exchange first) hAllows hFirst)
  | cons step steps ih =>
    obtain ⟨middle, hFirst, hRest⟩ := run_cons_eq_some.mp hRun
    exact .head (.turn (.exchange first) hAllows hFirst) (ih (.own node step) trivial hRest)

theorem exists_saved (sqlite : Sqlite) (hIdle : Idle net) (server client : ι) :
    ∃ middle, run (NetEvent.take sqlite) net [.reply server client (net server).nodesDb.length,
        .own client .clientSave] = some middle ∧ (∀ i, i ≠ client → middle i = net i) ∧
      (middle client).server = none ∧ (middle client).client = .saved ∧
      (middle client).nodesDb = (net client).nodesDb := by
  have hReceive : (Step.clientReceive ((net server).nodesDb.take (net server).nodesDb.length)).take
      sqlite (net client) = some { net client with
        client := .received ((net server).nodesDb.take (net server).nodesDb.length) } := by
    simp only [Step.take, (hIdle client).2]
  refine ⟨_, run_cons_eq_some.mpr ⟨_, Network.step_of_take hReceive,
    run_cons_eq_some.mpr ⟨_, Network.step_update rfl, rfl⟩⟩, ?_, ?_, ?_, ?_⟩
  · intro i hi
    rw [Function.update_of_ne hi]
  · rw [Function.update_self]
    exact (hIdle client).1
  · rw [Function.update_self]
  · rw [Function.update_self]

/-- The client is about to merge when the server saves another table in its place. -/
theorem exists_overtaken (sqlite : Sqlite) {node : ι} (hServer : (net node).server = none)
    (hClient : (net node).client = .saved) (other : ι) :
    ∃ next, run (NetEvent.take sqlite) net [.request other node (net other).nodesDb.length,
        .own node .serverSave, .own node .merge, .own node .unlink] = some next ∧
      (∀ i, i ≠ node → next i = net i) ∧ (next node).server = none ∧
      (next node).client = .idle ∧ readKeys (next node).nodesDb =
        readKeys (net node).nodesDb ∪ readKeys (net other).nodesDb := by
  have hRequest := run_request sqlite other hServer (net other).nodesDb.length
  rw [List.take_length] at hRequest
  have hMerge : Step.merge.take sqlite { net node with nodes_Db := some (net other).nodesDb } =
      some { net node with
        nodesDb := processNodesDb sqlite (net other).nodesDb (net node).nodesDb
        nodes_Db := some (net other).nodesDb, client := .merged } := by
    simp only [Step.take, hClient]
  have hRest : run (NetEvent.take sqlite)
      (Function.update net node { net node with nodes_Db := some (net other).nodesDb })
      [.own node .merge, .own node .unlink] = some (Function.update net node { net node with
        nodesDb := processNodesDb sqlite (net other).nodesDb (net node).nodesDb
        nodes_Db := none, client := .idle }) :=
    run_cons_eq_some.mpr ⟨_, Network.step_update hMerge,
      run_cons_eq_some.mpr ⟨_, Network.step_update rfl, rfl⟩⟩
  refine ⟨_, run_append_eq_some.mpr ⟨_, hRequest, hRest⟩, ?_, ?_, ?_, ?_⟩
  · intro i hi
    rw [Function.update_of_ne hi]
  · rw [Function.update_self]
    exact hServer
  · rw [Function.update_self]
  · rw [Function.update_self]
    exact readKeys_processNodesDb _ _

theorem exists_taken {node other : ι} (hIdle : Idle net) (hDials : internet.Dials net node other)
    (hThere : k ∈ readKeys (net other).nodesDb) :
    ∃ next, internet.Leads sqlite net next ∧ Idle next ∧ k ∈ readKeys (next node).nodesDb := by
  obtain ⟨middle, hRequest, hMiddle, hSame⟩ := exists_request sqlite hIdle node other
  obtain ⟨next, hReply, hNext, hHeld⟩ := exists_reply sqlite hMiddle other node
  have hDials' : internet.Dials middle node other := by
    rw [Internet.Dials, hSame]
    exact hDials
  have hFirst : internet.Leads sqlite net middle :=
    leads_run (.request node other _) other [.serverSave] hDials hRequest
  have hLast : internet.Leads sqlite middle next :=
    leads_run (.reply other node _) node [.clientSave, .merge, .unlink] hDials' hReply
  refine ⟨next, hFirst.trans hLast, hNext, ?_⟩
  have hNode : readKeys (next node).nodesDb =
      pull (fun i => readKeys (middle i).nodesDb) (node, other) node := congrFun hHeld node
  rw [hNode, mem_pull, hSame other]
  exact .inr ⟨rfl, hThere⟩

/-- While the node exchanges tables with `another`, its server saves the table of `other`. -/
theorem exists_given {node other another : ι} (hIdle : Idle net)
    (hDials : internet.Dials net other node) (hOut : internet.Dials net node another)
    (hThere : k ∈ readKeys (net other).nodesDb) :
    ∃ next, internet.Leads sqlite net next ∧ Idle next ∧ k ∈ readKeys (next node).nodesDb := by
  obtain ⟨net₁, hRequest, hIdle₁, hSame₁⟩ := exists_request sqlite hIdle node another
  obtain ⟨net₂, hSaved, hOthers₂, hServer, hClient, hTable⟩ :=
    exists_saved sqlite hIdle₁ another node
  have hSame₂ : ∀ i, (net₂ i).nodesDb = (net i).nodesDb := by
    intro i
    obtain rfl | hi := eq_or_ne i node
    · rw [hTable, hSame₁]
    · rw [hOthers₂ i hi, hSame₁]
  obtain ⟨next, hOvertaken, hOthers, hServer', hClient', hHeld⟩ :=
    exists_overtaken sqlite hServer hClient other
  have hOut₁ : internet.Dials net₁ node another := by
    rw [Internet.Dials, hSame₁]
    exact hOut
  have hDials₂ : internet.Dials net₂ other node := by
    rw [Internet.Dials, hSame₂]
    exact hDials
  have hFirst : internet.Leads sqlite net net₁ :=
    leads_run (.request node another _) another [.serverSave] hOut hRequest
  have hSecond : internet.Leads sqlite net₁ net₂ :=
    leads_run (.reply another node _) node [.clientSave] hOut₁ hSaved
  have hThird : internet.Leads sqlite net₂ next :=
    leads_run (.request other node _) node [.serverSave, .merge, .unlink] hDials₂ hOvertaken
  refine ⟨next, (hFirst.trans hSecond).trans hThird, ?_, ?_⟩
  · intro i
    obtain rfl | hi := eq_or_ne i node
    · exact ⟨hServer', hClient'⟩
    · rw [hOthers i hi, hOthers₂ i hi]
      exact hIdle₁ i
  · rw [hHeld, hSame₂ other]
    exact .inr hThere

theorem exists_learned (hExec : sqlite.ExecutesInsert) (h : internet.Learns tables i k)
    (hIdle : Idle net) (hTables : ∀ j, readKeys (tables j) ⊆ readKeys (net j).nodesDb) :
    ∃ next, internet.Leads sqlite net next ∧ Idle next ∧ k ∈ readKeys (next i).nodesDb := by
  induction h generalizing net with
  | @given node k hGiven =>
    obtain hOld | ⟨response, hReply, rfl⟩ := hGiven
    · exact ⟨net, .refl, hIdle, hTables node hOld⟩
    · obtain ⟨rows', hTurn⟩ :
          ∃ rows', tasksTurn sqlite (some response) (net node).nodesDb = some rows' :=
        ⟨_, tasksTurn_eq hExec response (net node).nodesDb⟩
      have hTake : (ThreadEvent.tasks node response).take sqlite net =
          some (Function.update net node { net node with nodesDb := rows' }) := by
        rw [ThreadEvent.take, Event.take, hTurn]
        rfl
      refine ⟨_, .single (.turn (.tasks node response) hReply hTake),
        hIdle.update (hIdle node).1 (hIdle node).2, ?_⟩
      rw [Function.update_self]
      change _ ∈ readKeys rows'
      rw [readKeys_tasksTurn hExec hTurn]
      exact .inr rfl
  | takes hAddress hReach hThere ihAddress ihThere =>
    obtain ⟨net₁, hLeads₁, hIdle₁, hKnown⟩ := ihAddress hIdle hTables
    obtain ⟨net₂, hLeads₂, hIdle₂, hk⟩ :=
      ihThere hIdle₁ fun j => (hTables j).trans (hLeads₁.keeps hExec j)
    obtain ⟨next, hLeads, hNext, hTaken⟩ :=
      exists_taken hIdle₂ ⟨_, hLeads₂.keeps hExec _ hKnown, hReach⟩ hk
    exact ⟨next, (hLeads₁.trans hLeads₂).trans hLeads, hNext, hTaken⟩
  | isGiven hAddress hReach hOut hOther hThere ihAddress ihOut ihThere =>
    obtain ⟨net₁, hLeads₁, hIdle₁, hKnown⟩ := ihAddress hIdle hTables
    have hTables₁ := fun j => (hTables j).trans (hLeads₁.keeps hExec j)
    obtain ⟨net₂, hLeads₂, hIdle₂, hWay⟩ := ihOut hIdle₁ hTables₁
    obtain ⟨net₃, hLeads₃, hIdle₃, hk⟩ :=
      ihThere hIdle₂ fun j => (hTables₁ j).trans (hLeads₂.keeps hExec j)
    have hKnown₃ := hLeads₃.keeps hExec _ (hLeads₂.keeps hExec _ hKnown)
    obtain ⟨next, hLeads, hNext, hGiven⟩ := exists_given hIdle₃ ⟨_, hKnown₃, hReach⟩
      ⟨_, hLeads₃.keeps hExec _ hWay, hOther⟩ hk
    exact ⟨next, ((hLeads₁.trans hLeads₂).trans hLeads₃).trans hLeads, hNext, hGiven⟩

/-- Whatever the order of the steps of all threads of all nodes, if clients connect to addresses of
their own tables: a key can come to the `nodes.db` of a node if and only if the node learns it. -/
theorem can_know_iff_learns (sqlite : Sqlite) (hExec : sqlite.ExecutesInsert)
    (internet : Internet ι) (tables : ι → List Row) (i : ι) (k : Key) :
    (∃ net, internet.Leads sqlite (fun j => start (tables j)) net ∧
      k ∈ readKeys (net i).nodesDb) ↔ internet.Learns tables i k := by
  constructor
  · rintro ⟨net, hLeads, hk⟩
    exact (hLeads.explains hExec (explains_start internet tables) i).stored k hk
  · intro h
    have hIdle : Idle fun j => start (tables j) := fun _ => ⟨rfl, rfl⟩
    obtain ⟨net, hLeads, -, hk⟩ := exists_learned hExec h hIdle fun _ => Set.Subset.rfl
    exact ⟨net, hLeads, hk⟩

/-- `true` reaches `false`, and `false` reaches no node. -/
def oneWay : Internet Bool where
  reach i _ := if i then some false else none
  replies _ := ∅

def oneWayTables (i : Bool) : List Row :=
  [peerRow (.ascii (if i then "127.0.0.1" else "10.0.0.2")) 5000]

theorem can_know_iff_learns_one_way :
    (∃ net, oneWay.Leads .reference (fun j => start (oneWayTables j)) net ∧
      (peerRow (.ascii "10.0.0.2") 5000).read.key ∈ readKeys (net true).nodesDb) ∧
    ¬ ∃ net, oneWay.Leads .reference (fun j => start (oneWayTables j)) net ∧
      (peerRow (.ascii "127.0.0.1") 5000).read.key ∈ readKeys (net false).nodesDb := by
  have hHeld (i : Bool) {row : Row} (hRow : row ∈ oneWayTables i) :
      oneWay.Learns oneWayTables i row.read.key :=
    .given (.inl ⟨row, hRow, rfl⟩)
  constructor
  · refine
      (can_know_iff_learns .reference executesInsert_reference oneWay oneWayTables true _).mpr ?_
    exact .takes (hHeld true List.mem_cons_self) rfl (hHeld false List.mem_cons_self)
  · intro hNet
    have hLearns :=
      (can_know_iff_learns .reference executesInsert_reference oneWay oneWayTables false _).mp hNet
    cases hLearns with
    | given hGiven =>
      obtain ⟨row, hRow, hKey⟩ | ⟨response, hReply, -⟩ := hGiven
      · obtain rfl := List.mem_singleton.mp hRow
        exact absurd hKey (by decide)
      · exact hReply
    | takes _ hReach _ => cases hReach
    | isGiven _ _ _ hOther _ => cases hOther

end Manhattan.Nodes
