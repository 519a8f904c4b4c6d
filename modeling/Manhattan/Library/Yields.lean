import Manhattan.Library.ExecRules

/-! # Programs with a known result

`Yields P m a Q` says that from every state in P the program m ends with the value a in a
state in Q. The rules follow the program; the last ones are for loops whose number of
turns is known.
-/

namespace Manhattan.Library.ExecRules

universe u

variable {ε σ α β : Type u}

def Yields (P : σ → Prop) (m : EStateM ε σ α) (a : α) (Q : σ → Prop) : Prop :=
  ∀ s, P s → ∃ t, m s = .ok a t ∧ Q t

variable {P Q R : σ → Prop} {m : EStateM ε σ α} {a b : α}

theorem yields_pure (P : σ → Prop) (a : α) : Yields P (pure a : EStateM ε σ α) a P :=
  fun s h => ⟨s, rfl, h⟩

theorem Yields.bind {f : α → EStateM ε σ β} {b : β} (hm : Yields P m a Q)
    (hf : Yields Q (f a) b R) : Yields P (m >>= f) b R := by
  intro s hs
  obtain ⟨t, hFirst, ht⟩ := hm s hs
  obtain ⟨u, hSecond, hu⟩ := hf t ht
  exact ⟨u, (bind_of_ok hFirst).trans hSecond, hu⟩

theorem Yields.mapM {ι : Type u} {f : ι → EStateM ε σ α} {g : ι → α} (l : List ι)
    (h : ∀ i ∈ l, Yields P (f i) (g i) P) : Yields P (l.mapM f) (l.map g) P := by
  induction l with
  | nil => exact yields_pure P []
  | cons i l ih =>
    rw [List.mapM_cons]
    exact (h i List.mem_cons_self).bind ((ih fun j hj => h j (List.mem_cons_of_mem _ hj)).bind
      (yields_pure P _))

/-- Two descriptions of one run from a common state agree. -/
theorem Yields.unique {P' : σ → Prop} (h : Yields P m a Q) (h' : Yields P' m b R) {s : σ}
    (hs : P s) (hs' : P' s) : a = b ∧ ∃ t, Q t ∧ R t := by
  obtain ⟨t, hRun, ht⟩ := h s hs
  obtain ⟨t', hRun', ht'⟩ := h' s hs'
  rw [hRun] at hRun'
  cases hRun'
  exact ⟨rfl, t, ht, ht'⟩

theorem not_yields_of_error {s t : σ} {e : ε} (hRun : m s = .error e t) (hs : P s) :
    ¬Yields P m a Q := by
  intro h
  obtain ⟨t', hOk, _⟩ := h s hs
  rw [hRun] at hOk
  cases hOk

section Turns

variable {ι ρ : Type u} {body : ι → EStateM ε σ (ι ⊕ ρ)} {i j : ι}

theorem yields_turns_one {c : ι ⊕ ρ} (h : Yields P (body i) c Q) :
    Yields P (turns body 1 i) c Q := by
  intro s hs
  obtain ⟨t, hTurn, ht⟩ := h s hs
  refine ⟨t, ?_, ht⟩
  cases c with
  | inl j => exact turns_succ_of_inl hTurn
  | inr r => exact turns_succ_of_inr hTurn

theorem Yields.turns_add {n k : Nat} {c : ι ⊕ ρ} (h : Yields P (turns body n i) (.inl j) Q)
    (h' : Yields Q (turns body k j) c R) : Yields P (turns body (n + k) i) c R := by
  intro s hs
  obtain ⟨t, hFirst, ht⟩ := h s hs
  obtain ⟨u, hSecond, hu⟩ := h' t ht
  exact ⟨u, (ExecRules.turns_add hFirst).trans hSecond, hu⟩

end Turns

end Manhattan.Library.ExecRules
