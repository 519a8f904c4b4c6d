import Mathlib

/-! # Snapshots of a log that grows

A log has its entries appended to it, and now and then the whole log is copied. Of two copies the
earlier one is the beginning of the later one, and what is in the log at some time is in every copy
that is made afterwards.
-/

namespace Manhattan.Library.Snapshots

variable {α : Type*}

structure Log (α : Type*) where
  entries : List α
  copies : List (List α)

inductive Step : Log α → Log α → Prop
  | append {entries more : List α} (copies : List (List α)) (h : entries <+: more) :
      Step ⟨entries, copies⟩ ⟨more, copies⟩
  | copy (entries : List α) (copies : List (List α)) :
      Step ⟨entries, copies⟩ ⟨entries, copies ++ [entries]⟩

structure Log.Ordered (l : Log α) : Prop where
  pairwise : l.copies.Pairwise (· <+: ·)
  copied : ∀ copy ∈ l.copies, copy <+: l.entries

/-- `l'` is `l` at a later time. -/
structure Log.Before (l l' : Log α) : Prop where
  entries : l.entries <+: l'.entries
  copies : ∃ more, l'.copies = l.copies ++ more ∧ ∀ copy ∈ more, l.entries <+: copy

variable {l l' l'' : Log α}

theorem Log.Before.refl (l : Log α) : l.Before l :=
  ⟨List.prefix_rfl, [], (List.append_nil _).symm, nofun⟩

theorem Log.Before.trans (h : l.Before l') (h' : l'.Before l'') : l.Before l'' := by
  obtain ⟨hEntries, more, hMore, hCopies⟩ := h
  obtain ⟨hEntries', more', hMore', hCopies'⟩ := h'
  refine ⟨hEntries.trans hEntries', more ++ more', by rw [hMore', hMore, List.append_assoc], ?_⟩
  intro copy hCopy
  rcases List.mem_append.mp hCopy with hFirst | hLater
  · exact hCopies copy hFirst
  · exact hEntries.trans (hCopies' copy hLater)

theorem Step.before (h : Step l l') : l.Before l' := by
  cases h with
  | append copies h => exact ⟨h, [], (List.append_nil _).symm, nofun⟩
  | copy entries copies =>
    refine ⟨List.prefix_rfl, [entries], rfl, ?_⟩
    intro copy hCopy
    rw [List.mem_singleton.mp hCopy]

theorem Step.ordered (h : Step l l') (hOrdered : l.Ordered) : l'.Ordered := by
  obtain ⟨hPairwise, hCopied⟩ := hOrdered
  cases h with
  | append copies h => exact ⟨hPairwise, fun copy hCopy => (hCopied copy hCopy).trans h⟩
  | copy entries copies =>
    constructor
    · rw [List.pairwise_append]
      refine ⟨hPairwise, List.pairwise_singleton _ _, ?_⟩
      intro copy hCopy last hLast
      rw [List.mem_singleton.mp hLast]
      exact hCopied copy hCopy
    · intro copy hCopy
      rcases List.mem_append.mp hCopy with hOld | hNew
      · exact hCopied copy hOld
      · rw [List.mem_singleton.mp hNew]

theorem Log.Ordered.prefix_of_le (h : l.Ordered) {i j : ℕ} {first later : List α}
    (hFirst : l.copies[i]? = some first) (hLater : l.copies[j]? = some later) (hij : i ≤ j) :
    first <+: later := by
  obtain ⟨hi, rfl⟩ := List.getElem?_eq_some_iff.mp hFirst
  obtain ⟨hj, rfl⟩ := List.getElem?_eq_some_iff.mp hLater
  obtain hLess | rfl := Nat.lt_or_eq_of_le hij
  · exact List.pairwise_iff_getElem.mp h.pairwise i j hi hj hLess
  · exact List.prefix_rfl

/-- A later copy has what was in the log. -/
theorem Log.Before.mem_copy (h : l.Before l') {j : ℕ} {copy : List α}
    (hCopy : l'.copies[j]? = some copy) (hLater : l.copies.length ≤ j) {entry : α}
    (hEntry : entry ∈ l.entries) : entry ∈ copy := by
  obtain ⟨-, more, hMore, hCopies⟩ := h
  rw [hMore, List.getElem?_append_right hLater] at hCopy
  exact (hCopies copy (List.mem_of_getElem? hCopy)).subset hEntry

end Manhattan.Library.Snapshots
