import Mathlib

/-! # Loops that are fed from outside

Each turn of such a loop takes one value that the program does not choose, and either goes on in a
new state or ends with a result. What holds in front of a turn is an invariant of the turns before;
a loop ends if a measure of its states falls.
-/

namespace Manhattan.Library.FedLoops

universe u v w

variable {σ : Type u} {ι : Type v} {ρ : Type w} (turn : σ → ι → σ ⊕ ρ) (feed : Nat → ι) (start : σ)

/-- The state in front of turn `n`, or the result if the loop has ended. -/
def after : Nat → σ ⊕ ρ
  | 0 => .inl start
  | n + 1 =>
    match after n with
    | .inl s => turn s (feed n)
    | .inr r => .inr r

def Ends : Prop := ∃ n r, after turn feed start n = .inr r

variable {turn feed start} {n m : Nat} {s : σ} {r : ρ}

theorem after_succ (h : after turn feed start n = .inl s) :
    after turn feed start (n + 1) = turn s (feed n) := by
  rw [after, h]

theorem after_succ_of_result (h : after turn feed start n = .inr r) :
    after turn feed start (n + 1) = .inr r := by
  rw [after, h]

theorem after_of_result (h : after turn feed start m = .inr r) (hLater : m ≤ n) :
    after turn feed start n = .inr r := by
  induction n, hLater using Nat.le_induction with
  | base => exact h
  | succ n _ ih => exact after_succ_of_result ih

theorem result_unique {r' : ρ} (h : after turn feed start m = .inr r)
    (h' : after turn feed start n = .inr r') : r = r' := by
  obtain hLater | hEarlier := Nat.le_total m n
  · exact Sum.inr.inj ((after_of_result h hLater).symm.trans h')
  · exact Sum.inr.inj (h.symm.trans (after_of_result h' hEarlier))

theorem exists_before (h : after turn feed start (n + 1) = .inl s) :
    ∃ t, after turn feed start n = .inl t ∧ turn t (feed n) = .inl s := by
  cases hBefore : after turn feed start n with
  | inl t => exact ⟨t, rfl, (after_succ hBefore).symm.trans h⟩
  | inr r =>
    rw [after_succ_of_result hBefore] at h
    cases h

theorem exists_last (h : after turn feed start n = .inr r) :
    ∃ k s, after turn feed start k = .inl s ∧ turn s (feed k) = .inr r := by
  induction n with
  | zero => cases h
  | succ n ih =>
    cases hBefore : after turn feed start n with
    | inl s => exact ⟨n, s, hBefore, (after_succ hBefore).symm.trans h⟩
    | inr r' =>
      obtain rfl := Sum.inr.inj ((after_succ_of_result hBefore).symm.trans h)
      exact ih hBefore

theorem invariant (holds : Nat → σ → Prop) (hStart : holds 0 start)
    (hTurn : ∀ n s t, holds n s → turn s (feed n) = .inl t → holds (n + 1) t)
    (h : after turn feed start n = .inl s) : holds n s := by
  induction n generalizing s with
  | zero =>
    obtain rfl := Sum.inl.inj h
    exact hStart
  | succ n ih =>
    obtain ⟨t, hBefore, hLast⟩ := exists_before h
    exact hTurn n t s (ih hBefore) hLast

theorem exists_state_of_not_ends (h : ¬Ends turn feed start) (n : Nat) :
    ∃ s, after turn feed start n = .inl s := by
  cases hAfter : after turn feed start n with
  | inl s => exact ⟨s, rfl⟩
  | inr r => exact absurd ⟨n, r, hAfter⟩ h

theorem exists_result_of_measure (measure : σ → Nat)
    (hFalls : ∀ n s t, after turn feed start n = .inl s → turn s (feed n) = .inl t →
      measure t < measure s) : ∃ r, after turn feed start (measure start + 1) = .inr r := by
  have hBound : ∀ n s, after turn feed start n = .inl s → n + measure s ≤ measure start := by
    intro n
    induction n with
    | zero =>
      intro s h
      obtain rfl := Sum.inl.inj h
      exact (Nat.zero_add _).le
    | succ n ih =>
      intro s h
      obtain ⟨t, hBefore, hLast⟩ := exists_before h
      have hEarlier := ih t hBefore
      have hLess := hFalls n t s hBefore hLast
      omega
  cases hAfter : after turn feed start (measure start + 1) with
  | inl s =>
    have hTooLong := hBound _ s hAfter
    omega
  | inr r => exact ⟨r, rfl⟩

/-! ## Two loops on one feed -/

/-- Two loops whose turns keep a relation end in the same turn, if they end. -/
theorem after_related {τ ω : Type*} {turn' : τ → ι → τ ⊕ ω} {start' : τ} (R : σ → τ → Prop)
    (V : ρ → ω → Prop) (hStart : R start start')
    (hTurn : ∀ s t i, R s t → Sum.LiftRel R V (turn s i) (turn' t i)) (n : Nat) :
    Sum.LiftRel R V (after turn feed start n) (after turn' feed start' n) := by
  induction n with
  | zero => exact .inl hStart
  | succ n ih =>
    rw [after, after]
    generalize after turn feed start n = first at ih ⊢
    generalize after turn' feed start' n = second at ih ⊢
    obtain hStates | hResults := ih
    · exact hTurn _ _ _ hStates
    · exact .inr hResults

end Manhattan.Library.FedLoops
