import Mathlib

/-! # Tables with a unique key

A table is the list of its rows in the order of their insertion. An insertion takes effect
only if no row has the key yet, as it does under a uniqueness constraint whose conflicts are
ignored. The keys then form a set that insertions add to, whatever else the rows hold, and
the rows that are there stay.
-/

namespace Manhattan.Library.KeyedTables

universe u v w

variable {α : Type u} {β : Type v} {κ : Type w} (key : α → κ)

def keys (rows : List α) : Set κ := {k | ∃ row ∈ rows, key row = k}

theorem keys_append (rows more : List α) :
    keys key (rows ++ more) = keys key rows ∪ keys key more := by
  apply Set.ext
  intro k
  constructor
  · rintro ⟨row, hRow, hKey⟩
    rcases List.mem_append.mp hRow with hOld | hNew
    · exact .inl ⟨row, hOld, hKey⟩
    · exact .inr ⟨row, hNew, hKey⟩
  · rintro (⟨row, hRow, hKey⟩ | ⟨row, hRow, hKey⟩)
    · exact ⟨row, List.mem_append_left _ hRow, hKey⟩
    · exact ⟨row, List.mem_append_right _ hRow, hKey⟩

theorem mem_keys_iff_mem_map {rows : List α} {k : κ} : k ∈ keys key rows ↔ k ∈ rows.map key :=
  List.mem_map.symm

def Unique (rows : List α) : Prop := (rows.map key).Nodup

/-- `rows'` has grown out of `rows` by rows with the keys `added`, of which some may have been
there before. -/
structure Grows (rows rows' : List α) (added : Set κ) : Prop where
  keys : keys key rows' = keys key rows ∪ added
  kept : rows <+: rows'
  unique : Unique key rows → Unique key rows'

variable {key}

theorem Grows.refl (rows : List α) : Grows key rows rows ∅ where
  keys := (Set.union_empty _).symm
  kept := List.prefix_rfl
  unique := id

theorem Grows.trans {rows rows' rows'' : List α} {added added' : Set κ}
    (h : Grows key rows rows' added) (h' : Grows key rows' rows'' added') :
    Grows key rows rows'' (added ∪ added') where
  keys := by rw [h'.keys, h.keys, Set.union_assoc]
  kept := h.kept.trans h'.kept
  unique := h'.unique ∘ h.unique

theorem Grows.congr {rows rows' : List α} {added added' : Set κ} (h : Grows key rows rows' added)
    (hAdded : ∀ k, k ∈ added ↔ k ∈ added') : Grows key rows rows' added' := by
  rwa [Set.ext hAdded] at h

/-! ## Many steps -/

theorem Grows.foldlM {step : List α → β → Option (List α)} {added : β → Set κ} (steps : List β)
    (h : ∀ b ∈ steps, ∀ rows rows', step rows b = some rows' → Grows key rows rows' (added b))
    {rows rows' : List α} (hRun : steps.foldlM step rows = some rows') :
    Grows key rows rows' {k | ∃ b ∈ steps, k ∈ added b} := by
  induction steps generalizing rows with
  | nil =>
    obtain rfl := Option.some.inj hRun
    apply (Grows.refl _).congr
    simp
  | cons b steps ih =>
    obtain ⟨next, hStep, hRest⟩ := Option.bind_eq_some_iff.mp hRun
    have hFirst := h b List.mem_cons_self rows next hStep
    have hLater := ih (fun c hc => h c (List.mem_cons_of_mem b hc)) hRest
    apply (hFirst.trans hLater).congr
    simp

theorem Grows.foldl {step : List α → β → List α} {added : β → Set κ}
    (h : ∀ rows b, Grows key rows (step rows b) (added b)) (steps : List β) (rows : List α) :
    Grows key rows (steps.foldl step rows) {k | ∃ b ∈ steps, k ∈ added b} := by
  induction steps generalizing rows with
  | nil =>
    apply (Grows.refl rows).congr
    simp
  | cons b steps ih =>
    apply ((h rows b).trans (ih (step rows b))).congr
    simp

/-! ## Insertion -/

variable [DecidableEq κ]

variable (key) in
def insertAbsent (rows : List α) (row : α) : List α :=
  if key row ∈ rows.map key then rows else rows ++ [row]

theorem grows_insertAbsent (rows : List α) (row : α) :
    Grows key rows (insertAbsent key rows row) {key row} := by
  unfold insertAbsent
  split
  · rename_i hThere
    refine ⟨?_, List.prefix_rfl, id⟩
    apply (Set.union_eq_left.mpr _).symm
    rintro k rfl
    exact (mem_keys_iff_mem_map key).mpr hThere
  · rename_i hNew
    refine ⟨?_, List.prefix_append rows [row], ?_⟩
    · rw [keys_append]
      congr 1
      apply Set.ext
      simp [keys, eq_comm]
    · intro hUnique
      rw [Unique, List.map_append, List.nodup_append]
      refine ⟨hUnique, List.nodup_singleton _, ?_⟩
      rintro k hk _ hRow rfl
      exact hNew (List.mem_singleton.mp hRow ▸ hk)

end Manhattan.Library.KeyedTables
