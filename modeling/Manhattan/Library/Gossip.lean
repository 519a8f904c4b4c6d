import Mathlib

/-! # What spreads by pulls

Each node holds a set. In a pull one node adds what another holds to its own. After any sequence of
pulls a node holds what some node held at the start, if a path of the pulls, in their order, leads
from there to it.
-/

namespace Manhattan.Library.Gossip

variable {ι κ : Type*}

/-! ## Paths -/

/-- The pulls lead from the first node to the second. -/
inductive Path : List (ι × ι) → ι → ι → Prop
  | here (source : ι) : Path [] source source
  | pull {path : List (ι × ι)} {source middle target : ι} (rest : Path path middle target) :
      Path ((middle, source) :: path) source target

/-- A path within the pulls -/
def Reaches (pulls : List (ι × ι)) (source target : ι) : Prop :=
  ∃ path, path.Sublist pulls ∧ Path path source target

variable {held : ι → Set κ} {pulls : List (ι × ι)} {source target : ι} {k : κ}

theorem reaches_nil : Reaches [] source target ↔ source = target := by
  constructor
  · rintro ⟨path, hPath, hLeads⟩
    obtain rfl := List.sublist_nil.mp hPath
    cases hLeads
    rfl
  · rintro rfl
    exact ⟨[], List.Sublist.refl [], .here source⟩

theorem reaches_cons (first : ι × ι) : Reaches (first :: pulls) source target ↔
    Reaches pulls source target ∨ source = first.2 ∧ Reaches pulls first.1 target := by
  constructor
  · rintro ⟨path, hPath, hLeads⟩
    cases hPath with
    | cons _ hPath => exact .inl ⟨path, hPath, hLeads⟩
    | cons_cons _ hPath =>
      cases hLeads with
      | pull hRest => exact .inr ⟨rfl, _, hPath, hRest⟩
  · rintro (⟨path, hPath, hLeads⟩ | ⟨rfl, path, hPath, hLeads⟩)
    · exact ⟨path, hPath.cons first, hLeads⟩
    · exact ⟨first :: path, hPath.cons_cons first, .pull hLeads⟩

/-! ## Sets -/

variable [DecidableEq ι]

/-- The first node adds what the second holds. -/
def pull (held : ι → Set κ) (nodes : ι × ι) : ι → Set κ :=
  Function.update held nodes.1 (held nodes.1 ∪ held nodes.2)

def pullAll (held : ι → Set κ) (pulls : List (ι × ι)) : ι → Set κ := pulls.foldl pull held

theorem mem_pull (first : ι × ι) : k ∈ pull held first target ↔
    k ∈ held target ∨ target = first.1 ∧ k ∈ held first.2 := by
  rw [pull]
  by_cases hTarget : target = first.1
  · subst hTarget
    rw [Function.update_self]
    simp
  · rw [Function.update_of_ne hTarget]
    simp [hTarget]

theorem mem_pullAll : k ∈ pullAll held pulls target ↔
    ∃ source, k ∈ held source ∧ Reaches pulls source target := by
  induction pulls generalizing held with
  | nil =>
    simp only [reaches_nil, exists_eq_right]
    rfl
  | cons first pulls ih =>
    rw [pullAll, List.foldl_cons, ← pullAll, ih]
    simp only [mem_pull, reaches_cons]
    constructor
    · rintro ⟨source, hOld | ⟨rfl, hPulled⟩, hReaches⟩
      · exact ⟨source, hOld, .inl hReaches⟩
      · exact ⟨first.2, hPulled, .inr ⟨rfl, hReaches⟩⟩
    · rintro ⟨source, hHeld, hReaches | ⟨rfl, hReaches⟩⟩
      · exact ⟨source, .inl hHeld, hReaches⟩
      · exact ⟨first.1, .inr ⟨rfl, hHeld⟩, hReaches⟩

theorem pull_subset (last : ι × ι) : held target ⊆ pull held last target :=
  fun _ hk => (mem_pull last).mpr (.inl hk)

/-! ## Nodes that reach each other by what they hold -/

/-- What a node can come to hold, where it reaches others under addresses that it holds. What it is
given by a node that reaches it, it takes only if it reaches some node itself. -/
inductive Learns (reach : ι → κ → Option ι) (given : ι → Set κ) : ι → κ → Prop
  | given {node : ι} {k : κ} (h : k ∈ given node) : Learns reach given node k
  | takes {node other : ι} {address k : κ} (hAddress : Learns reach given node address)
      (hReach : reach node address = some other) (hThere : Learns reach given other k) :
      Learns reach given node k
  | isGiven {node other another : ι} {address out k : κ} (hAddress : Learns reach given other address)
      (hReach : reach other address = some node) (hOut : Learns reach given node out)
      (hOther : reach node out = some another) (hThere : Learns reach given other k) :
      Learns reach given node k

end Manhattan.Library.Gossip
