import Manhattan.Nodes.Ipv4Pattern
import Manhattan.Nodes.Threads

/-! # The three threads

`thread_tasks` inserts its own address with the port 5001 while the other threads exchange tables.
Whatever the order of their steps, a row comes from the start, from a peer or from `thread_tasks`,
and the rows of `nodes.db` stay as they are. Neither NULL of `get_public_ip` nor that of
`extract_ipv4` ends the turn: the first goes on to `regexec`, the second into the row.
-/

namespace Manhattan.Nodes

open Library.CStrings Library.KeyedTables Library.Runs

def nodePort : BitVec 32 := 5001

/-- A turn of the loop of `thread_tasks` with what `get_public_ip` returns. Nothing comes out of
`regexec` with NULL for its string. What `insert_node` returns is not looked at. -/
def tasksTurn (sqlite : Sqlite) (response : Option CString) (rows : List Row) :
    Option (List Row) := do
  let str ← response
  let myIp := extractIpv4 str
  insertNode sqlite (printed myIp) nodePort rows

/-- A step of one of the three threads -/
inductive Event
  | exchange (step : Step)
  | tasks (response : Option CString)

def Event.take (sqlite : Sqlite) (s : State) : Event → Option State
  | exchange step => step.take sqlite s
  | tasks response =>
    (tasksTurn sqlite response s.nodesDb).map fun rows => { s with nodesDb := rows }

def ownKey (response : CString) : Key := (printed (extractIpv4 response), bindInt nodePort)

/-- A reply without an address leads to a row as well. -/
inductive Announces (response : CString) : Key → Prop
  | extracted {ip : CString} (found : extractIpv4 response = some ip) :
    Announces response (ip, bindInt nodePort)
  | null (notFound : extractIpv4 response = none) :
    Announces response (.ascii "(null)", bindInt nodePort)

theorem announces_iff {response : CString} {k : Key} :
    Announces response k ↔ k = ownKey response := by
  constructor
  · rintro (⟨hFound⟩ | ⟨hNone⟩)
    · rw [ownKey, hFound]
      rfl
    · rw [ownKey, hNone]
      rfl
  · rintro rfl
    cases hFound : extractIpv4 response with
    | some ip =>
      rw [ownKey, hFound]
      exact .extracted hFound
    | none =>
      rw [ownKey, hFound]
      exact .null hFound

/-- The keys that a step brings in -/
def Event.brings : Event → Set Key
  | exchange step => step.receives
  | tasks (some response) => {ownKey response}
  | tasks none => ∅

variable {sqlite : Sqlite} {s t : State} {k : Key}

/-! ## thread_tasks -/

theorem length_insertSql (ip : CString) (port : BitVec 32) :
    (insertSql ip port).length ≤ ip.length + 130 := by
  have hHead : insertHead.length = 87 := by
    rw [insertHead, CString.ascii_ofList]
    rfl
  have hMiddle : (CString.ascii "', ").length = 3 := rfl
  have hTail : (CString.ascii ", 0, 0, 0, 0, 0)").length = 16 := rfl
  have hPort := length_decimal32_le port
  simp only [insertSql, CString.length_append, hHead, hMiddle, hTail]
  omega

theorem tasksTurn_eq (hExec : sqlite.ExecutesInsert) (response : CString) (rows : List Row) :
    tasksTurn sqlite (some response) rows =
      some (sqlite.insert rows (newNode (printed (extractIpv4 response)) nodePort)) := by
  have hRoom : (insertSql (printed (extractIpv4 response)) nodePort).length < 256 := by
    have hSql := length_insertSql (printed (extractIpv4 response)) nodePort
    have hIp := length_printed_le response
    omega
  rw [tasksTurn, Option.bind_eq_bind, Option.bind_some, insertNode, sprintf_of_lt hRoom]
  exact congrArg some (hExec _ _ rows (quote_not_mem_printed response))

theorem grows_tasksTurn (hExec : sqlite.ExecutesInsert) {response : CString}
    {rows rows' : List Row} (h : tasksTurn sqlite (some response) rows = some rows') :
    Grows Row.key rows rows' {ownKey response} := by
  rw [tasksTurn_eq hExec] at h
  obtain rfl := Option.some.inj h
  exact grows_insert rows _

/-! ## One step -/

theorem exists_of_tasks {reply : Option CString} (h : (Event.tasks reply).take sqlite s = some t) :
    ∃ response rows, reply = some response ∧
      tasksTurn sqlite (some response) s.nodesDb = some rows ∧ t = { s with nodesDb := rows } := by
  obtain ⟨rows, hTurn, rfl⟩ := Option.map_eq_some_iff.mp h
  obtain ⟨response, rfl, -⟩ := Option.bind_eq_some_iff.mp hTurn
  exact ⟨response, rows, rfl, hTurn, rfl⟩

theorem grows_exchange {step : Step} (h : step.take sqlite s = some t) :
    ∃ added ⊆ s.waiting, Grows Row.key s.nodesDb t.nodesDb added := by
  cases Step.takes_of_take h with
  | @merge table hClient hFile =>
    refine ⟨_, ?_, grows_processNodesDb table s.nodesDb⟩
    rw [State.waiting, hFile]
    exact Set.Subset.rfl
  | serverReceive | serverSave | clientReceive | clientSave | mergeNothing | unlink =>
    exact ⟨∅, Set.empty_subset _, Grows.refl _⟩

/-- Keys do not come out of nothing. -/
theorem State.Holds.of_take {step : Step} (h : t.Holds k) (hTake : step.take sqlite s = some t) :
    s.Holds k ∨ k ∈ step.receives := by
  cases Step.takes_of_take hTake with
  | serverReceive hServer =>
    rcases h with hStored | hWaiting | hWith | hWith
    · exact .inl (.inl hStored)
    · exact .inl (.inr (.inl hWaiting))
    · exact .inr hWith
    · exact .inl (.inr (.inr (.inr hWith)))
  | serverSave hServer =>
    rcases h with hStored | hWaiting | ⟨row, hRow, -⟩ | hWith
    · exact .inl (.inl hStored)
    · refine .inl (.inr (.inr (.inl ?_)))
      rwa [withServer, hServer]
    · cases hRow
    · exact .inl (.inr (.inr (.inr hWith)))
  | clientReceive hClient =>
    rcases h with hStored | hWaiting | hWith | hWith
    · exact .inl (.inl hStored)
    · exact .inl (.inr (.inl hWaiting))
    · exact .inl (.inr (.inr (.inl hWith)))
    · exact .inr hWith
  | clientSave hClient =>
    rcases h with hStored | hWaiting | hWith | hNothing
    · exact .inl (.inl hStored)
    · refine .inl (.inr (.inr (.inr ?_)))
      rwa [withClient, hClient]
    · exact .inl (.inr (.inr (.inl hWith)))
    · cases hNothing
  | @merge table hClient hFile =>
    rcases h with hStored | hWaiting | hWith | hNothing
    · have hStored' : k ∈ keys Row.key (processNodesDb sqlite table s.nodesDb) := hStored
      rw [(grows_processNodesDb table s.nodesDb).keys] at hStored'
      obtain hOld | hNew := hStored'
      · exact .inl (.inl hOld)
      · refine .inl (.inr (.inl ?_))
        rwa [waiting, hFile]
    · exact .inl (.inr (.inl hWaiting))
    · exact .inl (.inr (.inr (.inl hWith)))
    · cases hNothing
  | mergeNothing hClient hFile =>
    rcases h with hStored | hWaiting | hWith | hNothing
    · exact .inl (.inl hStored)
    · exact .inl (.inr (.inl hWaiting))
    · exact .inl (.inr (.inr (.inl hWith)))
    · cases hNothing
  | unlink hClient =>
    rcases h with hStored | ⟨row, hRow, -⟩ | hWith | hNothing
    · exact .inl (.inl hStored)
    · cases hRow
    · exact .inl (.inr (.inr (.inl hWith)))
    · cases hNothing

/-! ## Runs -/

/-- `nodes.db` has grown out of `rows`, and every key that is somewhere comes from there or was
brought in. -/
structure Explained (rows : List Row) (brought : Set Key) (s : State) : Prop where
  kept : rows <+: s.nodesDb
  unique : Unique Row.key rows → Unique Row.key s.nodesDb
  known : ∀ k, s.Holds k → k ∈ keys Row.key rows ∪ brought

theorem explained_start (rows : List Row) : Explained rows ∅ (start rows) where
  kept := List.prefix_rfl
  unique := id
  known := by
    rintro k (hStored | ⟨_, hRow, -⟩ | ⟨_, hRow, -⟩ | hNothing)
    · exact .inl hStored
    · cases hRow
    · cases hRow
    · cases hNothing

theorem Explained.take (hExec : sqlite.ExecutesInsert) {rows : List Row} {brought : Set Key}
    {event : Event} (h : Explained rows brought s) (hTake : event.take sqlite s = some t) :
    Explained rows (brought ∪ event.brings) t := by
  cases event with
  | exchange step =>
    obtain ⟨added, -, hGrows⟩ := grows_exchange hTake
    refine ⟨h.kept.trans hGrows.kept, fun hUnique => hGrows.unique (h.unique hUnique), ?_⟩
    intro k hk
    obtain hOld | hNew := hk.of_take hTake
    · exact (h.known k hOld).imp_right .inl
    · exact .inr (.inr hNew)
  | tasks reply =>
    obtain ⟨response, rows', rfl, hTurn, rfl⟩ := exists_of_tasks hTake
    have hGrows := grows_tasksTurn hExec hTurn
    refine ⟨h.kept.trans hGrows.kept, fun hUnique => hGrows.unique (h.unique hUnique), ?_⟩
    rintro k (hStored | hElsewhere)
    · have hStored' : k ∈ keys Row.key rows' := hStored
      rw [hGrows.keys] at hStored'
      obtain hOld | hNew := hStored'
      · exact (h.known k (.inl hOld)).imp_right .inl
      · exact .inr (.inr hNew)
    · exact (h.known k (.inr hElsewhere)).imp_right .inl

theorem Explained.run (hExec : sqlite.ExecutesInsert) {rows : List Row} {brought : Set Key}
    {events : List Event} (h : Explained rows brought s)
    (hRun : run (Event.take sqlite) s events = some t) :
    Explained rows (brought ∪ {k | ∃ event ∈ events, k ∈ event.brings}) t := by
  induction events generalizing s brought with
  | nil =>
    obtain rfl := Option.some.inj hRun
    exact ⟨h.kept, h.unique, fun k hk => (h.known k hk).imp_right .inl⟩
  | cons event events ih =>
    obtain ⟨next, hFirst, hRest⟩ := run_cons_eq_some.mp hRun
    have hNext := ih (h.take hExec hFirst) hRest
    refine ⟨hNext.kept, hNext.unique, ?_⟩
    intro k hk
    rcases hNext.known k hk with hOld | (hBrought | hHere) | ⟨later, hMem, hLater⟩
    · exact .inl hOld
    · exact .inr (.inl hBrought)
    · exact .inr (.inr ⟨event, List.mem_cons_self, hHere⟩)
    · exact .inr (.inr ⟨later, List.mem_cons_of_mem _ hMem, hLater⟩)

theorem stored_event (hExec : sqlite.ExecutesInsert) {event : Event} (h : k ∈ s.stored)
    (hTake : event.take sqlite s = some t) : k ∈ t.stored := by
  cases event with
  | exchange step => exact stored_take h hTake
  | tasks reply =>
    obtain ⟨response, rows', rfl, hTurn, rfl⟩ := exists_of_tasks hTake
    change k ∈ keys Row.key rows'
    rw [(grows_tasksTurn hExec hTurn).keys]
    exact .inl h

theorem ownKey_stored (hExec : sqlite.ExecutesInsert) {response : CString} {events : List Event}
    (hMem : .tasks (some response) ∈ events) (hRun : run (Event.take sqlite) s events = some t) :
    ownKey response ∈ t.stored := by
  obtain ⟨before, after, rfl⟩ := List.append_of_mem hMem
  obtain ⟨middle, -, hRun⟩ := run_append_eq_some.mp hRun
  obtain ⟨next, hTake, hAfter⟩ := run_cons_eq_some.mp hRun
  have hHere : ownKey response ∈ next.stored := by
    obtain ⟨rows', hTurn, rfl⟩ := Option.map_eq_some_iff.mp hTake
    change ownKey response ∈ keys Row.key rows'
    rw [(grows_tasksTurn hExec hTurn).keys]
    exact .inr rfl
  have hAlways : Along (Event.take sqlite) (fun _ _ => True) next after := along_true
  exact hAlways.keeps (fun s => ownKey response ∈ s.stored)
    (fun _ _ _ h _ hTake => stored_event hExec h hTake) hHere hAfter

theorem exists_of_brings {events : List Event} {event : Event} (hMem : event ∈ events)
    (h : k ∈ event.brings) : (∃ step, .exchange step ∈ events ∧ k ∈ step.receives) ∨
      ∃ response, .tasks (some response) ∈ events ∧ Announces response k := by
  cases event with
  | exchange step => exact .inl ⟨step, hMem, h⟩
  | tasks reply =>
    cases reply with
    | some response => exact .inr ⟨response, hMem, announces_iff.mpr h⟩
    | none => cases h

example : Announces (.ascii "none") (.ascii "(null)", 5001) := .null (by decide +kernel)

end Manhattan.Nodes
