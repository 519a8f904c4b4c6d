import Manhattan.Library.ExecRules

/-! # Pre- and postconditions

`Triple P m Q E` says that the program m, run from a state in P, either returns a value and a state
in Q or stops with an error and a state in E. `Leads` is for loops: from a position and a state in P
finitely many turns lead to Q. A loop whose rounds lower a rank is over some time.
-/

namespace Manhattan.Library.ExecRules

universe u

variable {ε σ α β : Type u}

def Triple (P : σ → Prop) (m : EStateM ε σ α) (Q : α → σ → Prop) (E : ε → σ → Prop) : Prop :=
  ∀ s, P s → match m s with
    | .ok a t => Q a t
    | .error e t => E e t

section Rules

variable {P P' : σ → Prop} {Q Q' : α → σ → Prop} {R : β → σ → Prop} {E E' : ε → σ → Prop}
  {m : EStateM ε σ α}

theorem Triple.of_ok (h : Triple P m Q E) {s t : σ} {a : α} (hs : P s) (hRun : m s = .ok a t) :
    Q a t := by
  have hm := h s hs
  rwa [hRun] at hm

theorem Triple.of_error (h : Triple P m Q E) {s t : σ} {e : ε} (hs : P s)
    (hRun : m s = .error e t) : E e t := by
  have hm := h s hs
  rwa [hRun] at hm

theorem Triple.of (hOk : ∀ s a t, P s → m s = .ok a t → Q a t)
    (hError : ∀ s e t, P s → m s = .error e t → E e t) : Triple P m Q E := by
  intro s hs
  cases hRun : m s with
  | ok a t => exact hOk s a t hs hRun
  | error e t => exact hError s e t hs hRun

theorem triple_false : Triple (fun _ => False) m Q E := fun _ => False.elim

theorem Triple.mono (h : Triple P m Q E) (hP : ∀ s, P' s → P s) (hQ : ∀ a s, Q a s → Q' a s)
    (hE : ∀ e s, E e s → E' e s) : Triple P' m Q' E' :=
  .of (fun _ a t hs hRun => hQ a t (h.of_ok (hP _ hs) hRun))
    fun _ e t hs hRun => hE e t (h.of_error (hP _ hs) hRun)

theorem Triple.bind {f : α → EStateM ε σ β} (hm : Triple P m Q E)
    (hf : ∀ a, Triple (Q a) (f a) R E) : Triple P (m >>= f) R E := by
  intro s hs
  cases hRun : m s with
  | ok a t =>
    rw [bind_of_ok hRun]
    exact hf a t (hm.of_ok hs hRun)
  | error e t =>
    rw [bind_of_error hRun]
    exact hm.of_error hs hRun

end Rules

/-! ## Loops -/

section Loops

variable {ι ρ : Type u} {body : ι → EStateM ε σ (ι ⊕ ρ)}

def Leads (body : ι → EStateM ε σ (ι ⊕ ρ)) (i : ι) (P : σ → Prop) (Q : ι ⊕ ρ → σ → Prop) : Prop :=
  ∀ s, P s → ∃ n c t, turns body n i s = .ok c t ∧ Q c t

/-- `Leads` to one position -/
def Reaches (body : ι → EStateM ε σ (ι ⊕ ρ)) (i : ι) (P : σ → Prop) (j : ι) (Q : σ → Prop) : Prop :=
  Leads body i P fun c t => c = .inl j ∧ Q t

variable {i j k : ι} {P R : σ → Prop} {Q : ι ⊕ ρ → σ → Prop} {S : σ → Prop}

theorem Reaches.then (h : Reaches body i P j R) (hNext : Leads body j R Q) : Leads body i P Q := by
  intro s hs
  obtain ⟨n, c, t, hRun, rfl, ht⟩ := h s hs
  obtain ⟨n', c', t', hRun', hEnd⟩ := hNext t ht
  exact ⟨n + n', c', t', (turns_add hRun).trans hRun', hEnd⟩

theorem Reaches.trans (h : Reaches body i P j R) (hNext : Reaches body j R k S) :
    Reaches body i P k S := h.then hNext

theorem reaches_turn {a : ι} (h : ∀ s, P s → ∃ t, body i s = .ok (.inl a) t ∧ R t) :
    Reaches body i P a R := by
  intro s hs
  obtain ⟨t, hTurn, ht⟩ := h s hs
  exact ⟨1, .inl a, t, turns_succ_of_inl hTurn, rfl, ht⟩

/-- Each round leads back to the head of the loop with a smaller rank, or out of it. -/
theorem leads_of_rounds {κ : Type*} {less : κ → κ → Prop} (hWf : WellFounded less) {I : κ → σ → Prop}
    (h : ∀ x, Leads body i (I x) fun c t => (c = .inl i ∧ ∃ y, less y x ∧ I y t) ∨ Q c t) (x : κ) :
    Leads body i (I x) Q := by
  induction x using hWf.induction with
  | h x ih =>
    intro s hs
    obtain ⟨n, c, t, hRun, ⟨rfl, y, hLess, hAgain⟩ | hOut⟩ := h x s hs
    · obtain ⟨n', c', t', hRun', hEnd⟩ := ih y hLess t hAgain
      exact ⟨n + n', c', t', (turns_add hRun).trans hRun', hEnd⟩
    · exact ⟨n, c, t, hRun, hOut⟩

end Loops

end Manhattan.Library.ExecRules
