import Manhattan.Library.Runs
import Manhattan.Nodes.Table

/-! # The server thread and the client thread

Both threads save the table that they have received to `nodes_.db`, and only the client thread
merges that file into `nodes.db` and unlinks it. There is no lock, so a save can replace a table
that has not been merged, and an unlink can remove one. A file is saved, merged or unlinked in
one step.
-/

namespace Manhattan.Nodes

open Library.CStrings Library.KeyedTables Library.Runs

/-- Where the loop of `thread_client` stands. -/
inductive Client
  | idle
  | received (table : List Row)
  | saved
  | merged

/-- The two files, the table that `the_server` has received and not yet saved, and the client. -/
structure State where
  nodesDb : List Row
  nodes_Db : Option (List Row)
  server : Option (List Row)
  client : Client

def start (rows : List Row) : State := ⟨rows, none, none, .idle⟩

inductive Step
  | serverReceive (table : List Row)
  | serverSave
  | clientReceive (table : List Row)
  | clientSave
  | merge
  | unlink

/-- A merge that finds no `nodes_.db` returns 1, and the client begins anew. -/
def Step.take (sqlite : Sqlite) (s : State) : Step → Option State
  | serverReceive table =>
    match s.server with
    | none => some { s with server := some table }
    | some _ => none
  | serverSave =>
    match s.server with
    | some table => some { s with nodes_Db := some table, server := none }
    | none => none
  | clientReceive table =>
    match s.client with
    | .idle => some { s with client := .received table }
    | _ => none
  | clientSave =>
    match s.client with
    | .received table => some { s with nodes_Db := some table, client := .saved }
    | _ => none
  | merge =>
    match s.client, s.nodes_Db with
    | .saved, some table =>
      some { s with nodesDb := processNodesDb sqlite table s.nodesDb, client := .merged }
    | .saved, none => some { s with client := .idle }
    | _, _ => none
  | unlink =>
    match s.client with
    | .merged => some { s with nodes_Db := none, client := .idle }
    | _ => none

/-! ## Where rows are -/

def readKeys (table : List Row) : Set Key := {k | ∃ row ∈ table, row.read.key = k}

namespace State

def stored (s : State) : Set Key := keys Row.key s.nodesDb

def waiting (s : State) : Set Key := readKeys (s.nodes_Db.getD [])

def withServer (s : State) : Set Key := readKeys (s.server.getD [])

def withClient (s : State) : Set Key :=
  match s.client with
  | .received table => readKeys table
  | _ => ∅

def Holds (s : State) (k : Key) : Prop :=
  k ∈ s.stored ∨ k ∈ s.waiting ∨ k ∈ s.withServer ∨ k ∈ s.withClient

end State

/-- The step loses no row: the ports received are read as they are, what it overwrites or unlinks is
in `nodes.db` or is saved again, and a merge leaves no row of the server out. -/
def Step.LosesNone (s : State) : Step → Prop
  | serverReceive table => ∀ row ∈ table, row.read.key = row.key
  | clientReceive table => ∀ row ∈ table, row.read.key = row.key
  | serverSave => s.waiting ⊆ s.stored ∪ s.withServer
  | clientSave => s.waiting ⊆ s.stored ∪ s.withClient
  | merge => s.withServer ⊆ s.stored ∪ s.waiting
  | unlink => s.waiting ⊆ s.stored

/-! ## One step -/

/-- What a step can do, with what it finds. -/
inductive Step.Takes (sqlite : Sqlite) (s : State) : Step → State → Prop
  | serverReceive {table : List Row} (hServer : s.server = none) :
      Takes sqlite s (.serverReceive table) { s with server := some table }
  | serverSave {table : List Row} (hServer : s.server = some table) :
      Takes sqlite s .serverSave { s with nodes_Db := some table, server := none }
  | clientReceive {table : List Row} (hClient : s.client = .idle) :
      Takes sqlite s (.clientReceive table) { s with client := .received table }
  | clientSave {table : List Row} (hClient : s.client = .received table) :
      Takes sqlite s .clientSave { s with nodes_Db := some table, client := .saved }
  | merge {table : List Row} (hClient : s.client = .saved) (hFile : s.nodes_Db = some table) :
      Takes sqlite s .merge
        { s with nodesDb := processNodesDb sqlite table s.nodesDb, client := .merged }
  | mergeNothing (hClient : s.client = .saved) (hFile : s.nodes_Db = none) :
      Takes sqlite s .merge { s with client := .idle }
  | unlink (hClient : s.client = .merged) :
      Takes sqlite s .unlink { s with nodes_Db := none, client := .idle }

def State.FileSaved (s : State) : Prop := s.client = .saved → s.nodes_Db ≠ none

variable {sqlite : Sqlite} {s t : State} {k : Key} {table : List Row} {i : Step}

theorem Step.takes_of_take (h : i.take sqlite s = some t) : i.Takes sqlite s t := by
  cases i with
  | merge =>
    simp only [take] at h
    split at h
    · rename_i hClient hFile
      obtain rfl := Option.some.inj h
      exact .merge hClient hFile
    · rename_i hClient hFile
      obtain rfl := Option.some.inj h
      exact .mergeNothing hClient hFile
    · cases h
  | serverReceive table | serverSave | clientReceive table | clientSave | unlink =>
    simp only [take] at h
    split at h
    · obtain rfl := Option.some.inj h
      constructor
      assumption
    · cases h

theorem State.FileSaved.take (h : s.FileSaved) (hTake : i.take sqlite s = some t) :
    t.FileSaved := by
  cases Step.takes_of_take hTake with
  | serverReceive => exact h
  | serverSave | clientSave => exact fun _ => Option.some_ne_none _
  | clientReceive | merge | mergeNothing | unlink => rintro ⟨⟩

theorem State.Holds.take_serverReceive (h : s.Holds k)
    (hTake : (Step.serverReceive table).take sqlite s = some t) : t.Holds k := by
  cases Step.takes_of_take hTake with
  | serverReceive hServer =>
    rcases h with hStored | hWaiting | hWith | hClient
    · exact .inl hStored
    · exact .inr (.inl hWaiting)
    · rw [withServer, hServer] at hWith
      obtain ⟨row, hRow, _⟩ := hWith
      cases hRow
    · exact .inr (.inr (.inr hClient))

theorem State.Holds.take_clientReceive (h : s.Holds k)
    (hTake : (Step.clientReceive table).take sqlite s = some t) : t.Holds k := by
  cases Step.takes_of_take hTake with
  | clientReceive hClient =>
    rcases h with hStored | hWaiting | hWith | hWith
    · exact .inl hStored
    · exact .inr (.inl hWaiting)
    · exact .inr (.inr (.inl hWith))
    · rw [withClient, hClient] at hWith
      cases hWith

theorem State.Holds.take_serverSave (h : s.Holds k) (hNone : Step.serverSave.LosesNone s)
    (hTake : Step.serverSave.take sqlite s = some t) : t.Holds k := by
  cases Step.takes_of_take hTake with
  | @serverSave table hServer =>
    have hSaved : ∀ k ∈ s.withServer, k ∈ readKeys table := by
      intro k hk
      rwa [withServer, hServer] at hk
    rcases h with hStored | hWaiting | hWith | hClient
    · exact .inl hStored
    · rcases hNone hWaiting with hStored | hWith
      · exact .inl hStored
      · exact .inr (.inl (hSaved k hWith))
    · exact .inr (.inl (hSaved k hWith))
    · exact .inr (.inr (.inr hClient))

theorem State.Holds.take_clientSave (h : s.Holds k) (hNone : Step.clientSave.LosesNone s)
    (hTake : Step.clientSave.take sqlite s = some t) : t.Holds k := by
  cases Step.takes_of_take hTake with
  | @clientSave table hClient =>
    have hSaved : ∀ k ∈ s.withClient, k ∈ readKeys table := by
      intro k hk
      rwa [withClient, hClient] at hk
    rcases h with hStored | hWaiting | hWith | hWith
    · exact .inl hStored
    · rcases hNone hWaiting with hStored | hWith
      · exact .inl hStored
      · exact .inr (.inl (hSaved k hWith))
    · exact .inr (.inr (.inl hWith))
    · exact .inr (.inl (hSaved k hWith))

theorem State.Holds.take_merge (h : s.Holds k) (hSaved : s.FileSaved)
    (hNone : Step.merge.LosesNone s) (hTake : Step.merge.take sqlite s = some t) :
    k ∈ t.stored := by
  cases Step.takes_of_take hTake with
  | @merge table hClient hFile =>
    have hMerged : ∀ k ∈ s.waiting, k ∈ readKeys table := by
      intro k hk
      rwa [waiting, hFile] at hk
    change k ∈ keys Row.key (processNodesDb sqlite table s.nodesDb)
    rw [(grows_processNodesDb table s.nodesDb).keys]
    rcases h with hStored | hWaiting | hWith | hWith
    · exact .inl hStored
    · exact .inr (hMerged k hWaiting)
    · rcases hNone hWith with hStored | hWaiting
      · exact .inl hStored
      · exact .inr (hMerged k hWaiting)
    · rw [withClient, hClient] at hWith
      cases hWith
  | mergeNothing hClient hFile => exact absurd hFile (hSaved hClient)

theorem State.Holds.take_unlink (h : s.Holds k) (hNone : Step.unlink.LosesNone s)
    (hTake : Step.unlink.take sqlite s = some t) : t.Holds k := by
  cases Step.takes_of_take hTake with
  | unlink hClient =>
    rcases h with hStored | hWaiting | hWith | hWith
    · exact .inl hStored
    · exact .inl (hNone hWaiting)
    · exact .inr (.inr (.inl hWith))
    · rw [withClient, hClient] at hWith
      cases hWith

theorem State.Holds.take (h : s.Holds k) (hSaved : s.FileSaved) (hNone : i.LosesNone s)
    (hTake : i.take sqlite s = some t) : t.Holds k := by
  cases i with
  | serverReceive table => exact h.take_serverReceive hTake
  | serverSave => exact h.take_serverSave hNone hTake
  | clientReceive table => exact h.take_clientReceive hTake
  | clientSave => exact h.take_clientSave hNone hTake
  | merge => exact .inl (h.take_merge hSaved hNone hTake)
  | unlink => exact h.take_unlink hNone hTake

theorem stored_take (h : k ∈ s.stored) (hTake : i.take sqlite s = some t) : k ∈ t.stored := by
  cases Step.takes_of_take hTake with
  | @merge table hClient hFile =>
    change k ∈ keys Row.key (processNodesDb sqlite table s.nodesDb)
    rw [(grows_processNodesDb table s.nodesDb).keys]
    exact .inl h
  | serverReceive | serverSave | clientReceive | clientSave | mergeNothing | unlink => exact h

def Step.receives : Step → Set Key
  | serverReceive table => readKeys table
  | clientReceive table => readKeys table
  | _ => ∅

theorem holds_of_receives (h : k ∈ i.receives) (hTake : i.take sqlite s = some t) : t.Holds k := by
  cases Step.takes_of_take hTake with
  | serverReceive => exact .inr (.inr (.inl h))
  | clientReceive => exact .inr (.inr (.inr h))
  | serverSave | clientSave | merge | mergeNothing | unlink => cases h

/-! ## Runs -/

theorem fileSaved_of_run {rows : List Row} {steps : List Step}
    (hRun : run (Step.take sqlite) (start rows) steps = some t) : t.FileSaved := by
  have hAlways : Along (Step.take sqlite) (fun _ _ => True) (start rows) steps := along_true
  refine hAlways.keeps State.FileSaved (fun _ _ _ h _ hTake => h.take hTake) ?_ hRun
  rintro ⟨⟩

/-- In a run whose steps lose no row, every row received before a merge is in `nodes.db` from
this merge on, and so it is when the cycle completes with the unlink. -/
theorem merged_rows_present (sqlite : Sqlite) (rows : List Row) (before after : List Step)
    (t : State)
    (hRun : run (Step.take sqlite) (start rows) (before ++ .merge :: after) = some t)
    (hNone : Along (Step.take sqlite) (fun s i => i.LosesNone s) (start rows)
      (before ++ .merge :: after))
    (table : List Row) (hReceived : .serverReceive table ∈ before ∨ .clientReceive table ∈ before)
    (row : Row) (hRow : row ∈ table) : row.key ∈ keys Row.key t.nodesDb := by
  obtain ⟨i, hMem, hKey⟩ : ∃ i ∈ before, ∀ s, i.LosesNone s → row.key ∈ i.receives := by
    rcases hReceived with hMem | hMem
    · exact ⟨_, hMem, fun s hPorts => ⟨row, hRow, hPorts row hRow⟩⟩
    · exact ⟨_, hMem, fun s hPorts => ⟨row, hRow, hPorts row hRow⟩⟩
  obtain ⟨first, middle, rfl⟩ := List.append_of_mem hMem
  rw [List.append_assoc] at hRun hNone
  obtain ⟨s₁, hFirst, hRun⟩ := run_append_eq_some.mp hRun
  obtain ⟨s₂, hReceive, hRun⟩ := run_cons_eq_some.mp hRun
  obtain ⟨s₃, hMiddle, hRun⟩ := run_append_eq_some.mp hRun
  obtain ⟨s₄, hMerge, hAfter⟩ := run_cons_eq_some.mp hRun
  obtain ⟨hReceiveNone, hNone₂⟩ := hNone.right hFirst
  have hNone₂ := hNone₂ s₂ hReceive
  have hFile₂ := (fileSaved_of_run hFirst).take hReceive
  have hStep : ∀ (s : State) (i : Step) (t : State), s.FileSaved ∧ s.Holds row.key →
      i.LosesNone s → i.take sqlite s = some t → t.FileSaved ∧ t.Holds row.key := by
    rintro s i t ⟨hFile, hHolds⟩ hNone hTake
    exact ⟨hFile.take hTake, hHolds.take hFile hNone hTake⟩
  obtain ⟨hFile₃, hHolds₃⟩ := hNone₂.left.keeps _ hStep
    ⟨hFile₂, holds_of_receives (hKey s₁ hReceiveNone) hReceive⟩ hMiddle
  have hStored₄ := hHolds₃.take_merge hFile₃ (hNone₂.right hMiddle).1 hMerge
  have hAlways : Along (Step.take sqlite) (fun _ _ => True) s₄ after := along_true
  exact hAlways.keeps (fun s => row.key ∈ s.stored)
    (fun _ _ _ h _ hTake => stored_take h hTake) hStored₄ hAfter

/-- The table saved by the server is replaced by the client's before it has been merged. -/
theorem received_row_lost :
    let row := peerRow localhost 5000
    let other := peerRow localhost 5001
    let steps : List Step := [.serverReceive [row], .serverSave, .clientReceive [other],
      .clientSave, .merge, .unlink]
    (run (Step.take .reference) (start []) steps).map (fun s => s.nodesDb.map Row.key) =
      some [(localhost, 5001)] := by
  decide +kernel

/-- The server's save replaces the client's table, of which its own has all rows. -/
theorem merged_rows_present_once :
    let row := peerRow localhost 5000
    let other := peerRow localhost 5001
    ∃ t, run (Step.take .reference) (start []) [.clientReceive [other], .clientSave,
        .serverReceive [row, other], .serverSave, .merge, .unlink] = some t ∧
      row.key ∈ keys Row.key t.nodesDb := by
  intro row other
  have hPorts : ∀ r ∈ [row, other], r.read.key = r.key := by
    intro r hr
    simp only [List.mem_cons, List.not_mem_nil, or_false] at hr
    rcases hr with rfl | rfl <;> decide +kernel
  have hNothing : ∀ keys : Set Key, readKeys [] ⊆ keys := by
    rintro keys k ⟨row, ⟨⟩, _⟩
  have hSaved : readKeys [other] ⊆ readKeys [row, other] := by
    rintro k ⟨r, hr, hKey⟩
    exact ⟨r, List.mem_cons_of_mem _ hr, hKey⟩
  have hStored : readKeys [row, other] ⊆
      keys Row.key (processNodesDb .reference [row, other] []) := by
    rw [(grows_processNodesDb [row, other] []).keys]
    exact Set.subset_union_right
  have hNone : Along (Step.take .reference) (fun s i => i.LosesNone s) (start [])
      ([.clientReceive [other], .clientSave, .serverReceive [row, other], .serverSave] ++
        .merge :: [.unlink]) :=
    .cons (fun r hr => hPorts r (List.mem_cons_of_mem _ hr)) rfl <| .cons (hNothing _) rfl <|
      .cons hPorts rfl <| .cons (hSaved.trans Set.subset_union_right) rfl <|
      .cons (hNothing _) rfl <| .cons hStored rfl trivial
  exact ⟨_, rfl, merged_rows_present .reference []
    [.clientReceive [other], .clientSave, .serverReceive [row, other], .serverSave] [.unlink] _ rfl
    hNone [row, other] (.inl (by simp)) row List.mem_cons_self⟩

end Manhattan.Nodes
