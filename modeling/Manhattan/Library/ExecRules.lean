import Mathlib

/-! # Rules for stateful programs that may stop early

A program is an `EStateM` computation: it returns a value or stops with an error,
and leaves a state in both cases. The module has an invariant rule, a two-run rule
and the programs generated by a set of primitives, for which both rules only have
to be checked on the primitives.
-/

namespace Manhattan.Library.ExecRules

universe u

variable {ε σ τ α β γ δ : Type u}

def final : EStateM.Result ε σ α → σ
  | .ok _ s => s
  | .error _ s => s

@[simp] theorem final_ok (a : α) (s : σ) : final (.ok a s : EStateM.Result ε σ α) = s := rfl

@[simp] theorem final_error (e : ε) (s : σ) :
    final (.error e s : EStateM.Result ε σ α) = s := rfl

/-- How a run ended, without the state it left: enough to compare runs by evaluation. -/
def outcome : EStateM.Result ε σ α → Except ε α
  | .ok a _ => .ok a
  | .error e _ => .error e

theorem eq_ok_of_outcome {x : EStateM.Result ε σ α} {a : α} (h : outcome x = .ok a) :
    x = .ok a (final x) := by
  cases x with
  | ok b s =>
    cases h
    rfl
  | error e s => cases h

theorem eq_error_of_outcome {x : EStateM.Result ε σ α} {e : ε} (h : outcome x = .error e) :
    x = .error e (final x) := by
  cases x with
  | ok b s => cases h
  | error e' s =>
    cases h
    rfl

theorem bind_of_ok {m : EStateM ε σ α} {f : α → EStateM ε σ β} {s s' : σ} {a : α}
    (h : m s = .ok a s') : (m >>= f) s = f a s' := by
  change EStateM.bind m f s = _
  rw [EStateM.bind, h]

theorem bind_of_error {m : EStateM ε σ α} {f : α → EStateM ε σ β} {s s' : σ} {e : ε}
    (h : m s = .error e s') : (m >>= f) s = .error e s' := by
  change EStateM.bind m f s = _
  rw [EStateM.bind, h]

theorem bind_eq_ok {m : EStateM ε σ α} {f : α → EStateM ε σ β} {s s' : σ} {b : β}
    (h : (m >>= f) s = .ok b s') : ∃ a t, m s = .ok a t ∧ f a t = .ok b s' := by
  cases hm : m s with
  | ok a t => exact ⟨a, t, rfl, by rw [← h, bind_of_ok hm]⟩
  | error e t =>
    rw [bind_of_error hm] at h
    cases h

theorem final_bind_pure (m : EStateM ε σ α) (f : α → β) (s : σ) :
    final ((m >>= fun a => pure (f a)) s) = final (m s) := by
  cases h : m s with
  | ok a t =>
    rw [bind_of_ok h]
    rfl
  | error e t =>
    rw [bind_of_error h]
    rfl

/-! ## Invariants -/

/-- A run that returned left `I`; one that stopped early left `E`. -/
def Leaves (I : σ → Prop) (E : ε → σ → Prop) : EStateM.Result ε σ α → Prop
  | .ok _ s => I s
  | .error e s => E e s

def Keeps (I : σ → Prop) (E : ε → σ → Prop) (m : EStateM ε σ α) : Prop :=
  ∀ s, I s → Leaves I E (m s)

section Keeps

variable {I : σ → Prop} {E : ε → σ → Prop}

theorem Keeps.of_ok {m : EStateM ε σ α} (h : Keeps I E m) {s s' : σ} {a : α} (hs : I s)
    (hEq : m s = .ok a s') : I s' := by
  have hm := h s hs
  rwa [hEq] at hm

theorem Keeps.of_error {m : EStateM ε σ α} (h : Keeps I E m) {s s' : σ} {e : ε} (hs : I s)
    (hEq : m s = .error e s') : E e s' := by
  have hm := h s hs
  rwa [hEq] at hm

theorem Keeps.final {m : EStateM ε σ α} (h : Keeps I (fun _ => I) m) {s : σ} (hs : I s) :
    I (final (m s)) := by
  cases hEq : m s with
  | ok a s' => exact h.of_ok hs hEq
  | error e s' => exact h.of_error hs hEq

theorem Keeps.of_final {m : EStateM ε σ α} (h : ∀ s, I s → I (ExecRules.final (m s))) :
    Keeps I (fun _ => I) m := by
  intro s hs
  have hFinal := h s hs
  cases hEq : m s with
  | ok a s' => rwa [hEq] at hFinal
  | error e s' => rwa [hEq] at hFinal

theorem Keeps.pure (a : α) : Keeps I E (pure a : EStateM ε σ α) := fun _ h => h

theorem Keeps.throw {e : ε} (h : ∀ s, I s → E e s) : Keeps I E (throw e : EStateM ε σ α) := h

theorem Keeps.bind {m : EStateM ε σ α} {f : α → EStateM ε σ β}
    (hm : Keeps I E m) (hf : ∀ a, Keeps I E (f a)) : Keeps I E (m >>= f) := by
  intro s hs
  cases hEq : m s with
  | ok a t =>
    rw [bind_of_ok hEq]
    exact hf a t (hm.of_ok hs hEq)
  | error e t =>
    rw [bind_of_error hEq]
    exact hm.of_error hs hEq

theorem Keeps.ite {c : Prop} [Decidable c] {m n : EStateM ε σ α}
    (hm : Keeps I E m) (hn : Keeps I E n) : Keeps I E (if c then m else n) := by
  split
  · exact hm
  · exact hn

theorem Keeps.mapM {f : α → EStateM ε σ β} (l : List α)
    (h : ∀ a ∈ l, Keeps I E (f a)) : Keeps I E (l.mapM f) := by
  induction l with
  | nil => exact Keeps.pure _
  | cons a l ih =>
    rw [List.mapM_cons]
    exact (h a List.mem_cons_self).bind fun _ =>
      (ih fun b hb => h b (List.mem_cons_of_mem _ hb)).bind fun _ => Keeps.pure _

theorem Keeps.forM {f : α → EStateM ε σ PUnit} (l : List α)
    (h : ∀ a ∈ l, Keeps I E (f a)) : Keeps I E (l.forM f) := by
  induction l with
  | nil => exact Keeps.pure _
  | cons a l ih =>
    exact (h a List.mem_cons_self).bind fun _ => ih fun b hb => h b (List.mem_cons_of_mem _ hb)

end Keeps

/-! ## Two runs side by side -/

/-- Whenever `m` returns, `n` started in a related state returns a related value
and leaves a related state. -/
def Follows (R : σ → τ → Prop) (V : α → β → Prop) (m : EStateM ε σ α) (n : EStateM ε τ β) : Prop :=
  ∀ s t, R s t → ∀ a s', m s = .ok a s' → ∃ b t', n t = .ok b t' ∧ V a b ∧ R s' t'

theorem Follows.pure {R : σ → τ → Prop} {V : α → β → Prop} {a : α} {b : β} (h : V a b) :
    Follows R V (pure a : EStateM ε σ α) (pure b : EStateM ε τ β) := by
  intro s t hR a' s' hEq
  cases hEq
  exact ⟨b, t, rfl, h, hR⟩

theorem Follows.throw (R : σ → τ → Prop) (V : α → β → Prop) (e : ε) (n : EStateM ε τ β) :
    Follows R V (throw e : EStateM ε σ α) n := by
  intro s t _ a s' hEq
  cases hEq

theorem Follows.bind {R : σ → τ → Prop} {V : α → β → Prop} {W : γ → δ → Prop}
    {m : EStateM ε σ α} {n : EStateM ε τ β} {f : α → EStateM ε σ γ} {g : β → EStateM ε τ δ}
    (hm : Follows R V m n) (hf : ∀ a b, V a b → Follows R W (f a) (g b)) :
    Follows R W (m >>= f) (n >>= g) := by
  intro s t hR c s' hEq
  obtain ⟨a, u, hFirst, hSecond⟩ := bind_eq_ok hEq
  obtain ⟨b, v, hFirst', hV, hR'⟩ := hm s t hR a u hFirst
  obtain ⟨d, t', hSecond', hW, hR''⟩ := hf a b hV u v hR' c s' hSecond
  exact ⟨d, t', by rw [bind_of_ok hFirst', hSecond'], hW, hR''⟩

theorem Follows.mono {R : σ → τ → Prop} {V W : α → β → Prop} {m : EStateM ε σ α}
    {n : EStateM ε τ β} (h : Follows R V m n) (hVW : ∀ a b, V a b → W a b) :
    Follows R W m n := by
  intro s t hR a s' hEq
  obtain ⟨b, t', hEq', hV, hR'⟩ := h s t hR a s' hEq
  exact ⟨b, t', hEq', hVW a b hV, hR'⟩

theorem Follows.mapM {R : σ → τ → Prop} {f : α → EStateM ε σ β} {g : α → EStateM ε τ β}
    (l : List α) (h : ∀ a ∈ l, Follows R Eq (f a) (g a)) : Follows R Eq (l.mapM f) (l.mapM g) := by
  induction l with
  | nil => exact Follows.pure rfl
  | cons a l ih =>
    rw [List.mapM_cons, List.mapM_cons]
    refine (h a List.mem_cons_self).bind ?_
    rintro b _ rfl
    refine (ih fun c hc => h c (List.mem_cons_of_mem _ hc)).bind ?_
    rintro bs _ rfl
    exact Follows.pure rfl

theorem Follows.forM {R : σ → τ → Prop} {f : α → EStateM ε σ PUnit} {g : α → EStateM ε τ PUnit}
    (l : List α) (h : ∀ a ∈ l, Follows R Eq (f a) (g a)) : Follows R Eq (l.forM f) (l.forM g) := by
  induction l with
  | nil => exact Follows.pure rfl
  | cons a l ih =>
    exact (h a List.mem_cons_self).bind fun _ _ _ => ih fun b hb => h b (List.mem_cons_of_mem _ hb)

/-! ## Programs generated by primitives -/

/-- The programs put together from the primitives `P` by sequencing, by returning and by
stopping with one of the errors `T`. -/
inductive Generated (P : ∀ α : Type u, EStateM ε σ α → Prop) (T : ε → Prop) :
    ∀ {α : Type u}, EStateM ε σ α → Prop
  | prim {α : Type u} {m : EStateM ε σ α} (h : P α m) : Generated P T m
  | pure {α : Type u} (a : α) : Generated P T (pure a : EStateM ε σ α)
  | throw {α : Type u} {e : ε} (h : T e) : Generated P T (throw e : EStateM ε σ α)
  | bind {α β : Type u} {m : EStateM ε σ α} {f : α → EStateM ε σ β}
      (hm : Generated P T m) (hf : ∀ a, Generated P T (f a)) : Generated P T (m >>= f)

section Generated

variable {P Q : ∀ α : Type u, EStateM ε σ α → Prop} {T : ε → Prop}

theorem Generated.ite {c : Prop} [Decidable c] {m n : EStateM ε σ α}
    (hm : Generated P T m) (hn : Generated P T n) : Generated P T (if c then m else n) := by
  split
  · exact hm
  · exact hn

theorem Generated.mono {U : ε → Prop} (hPQ : ∀ {α : Type u} (m : EStateM ε σ α), P α m → Q α m)
    (hTU : ∀ e, T e → U e) {m : EStateM ε σ α} (h : Generated P T m) : Generated Q U m := by
  induction h with
  | prim h => exact .prim (hPQ _ h)
  | pure a => exact .pure a
  | throw h => exact .throw (hTU _ h)
  | bind _ _ ihm ihf => exact .bind ihm ihf

theorem Generated.keeps {I : σ → Prop} {E : ε → σ → Prop}
    (hP : ∀ {α : Type u} (m : EStateM ε σ α), P α m → Keeps I E m)
    (hT : ∀ e s, T e → I s → E e s) {m : EStateM ε σ α} (h : Generated P T m) :
    Keeps I E m := by
  induction h with
  | prim h => exact hP _ h
  | pure a => exact Keeps.pure a
  | throw h => exact Keeps.throw fun s => hT _ s h
  | bind _ _ ihm ihf => exact Keeps.bind ihm ihf

theorem Generated.follows {R : σ → σ → Prop}
    (hP : ∀ {α : Type u} (m : EStateM ε σ α), P α m → Follows R Eq m m)
    {m : EStateM ε σ α} (h : Generated P T m) : Follows R Eq m m := by
  induction h with
  | prim h => exact hP _ h
  | pure a => exact Follows.pure rfl
  | throw h => exact Follows.throw R Eq _ _
  | bind _ _ ihm ihf =>
    refine Follows.bind ihm ?_
    rintro a b rfl
    exact ihf a

end Generated

/-! ## Loops -/

/-- At most `n` turns of a loop whose body either asks for another turn (`inl`) or
leaves the loop (`inr`). -/
def turns {ι ρ : Type u} (body : ι → EStateM ε σ (ι ⊕ ρ)) : Nat → ι → EStateM ε σ (ι ⊕ ρ)
  | 0, i => pure (.inl i)
  | n + 1, i => body i >>= fun
    | .inl j => turns body n j
    | .inr r => pure (.inr r)

section Turns

variable {ι κ ρ ω : Type u} {body : ι → EStateM ε σ (ι ⊕ ρ)}

theorem turns_keeps {I : σ → Prop} {E : ε → σ → Prop} (h : ∀ i, Keeps I E (body i)) (n : Nat)
    (i : ι) : Keeps I E (turns body n i) := by
  induction n generalizing i with
  | zero => exact Keeps.pure _
  | succ n ih =>
    refine Keeps.bind (h i) ?_
    rintro (j | r)
    · exact ih j
    · exact Keeps.pure _

theorem turns_follows {other : κ → EStateM ε τ (κ ⊕ ω)} {R : σ → τ → Prop} {J : ι → κ → Prop}
    {V : ρ → ω → Prop} (h : ∀ i k, J i k → Follows R (Sum.LiftRel J V) (body i) (other k))
    (n : Nat) {i : ι} {k : κ} (hJ : J i k) :
    Follows R (Sum.LiftRel J V) (turns body n i) (turns other n k) := by
  induction n generalizing i k with
  | zero => exact Follows.pure (.inl hJ)
  | succ n ih =>
    refine Follows.bind (h i k hJ) ?_
    rintro a b (hJ' | hV)
    · exact ih hJ'
    · exact Follows.pure (.inr hV)

theorem turns_succ_of_inl {n : Nat} {i j : ι} {s t : σ} (h : body i s = .ok (.inl j) t) :
    turns body (n + 1) i s = turns body n j t := bind_of_ok h

theorem turns_succ_of_inr {n : Nat} {i : ι} {r : ρ} {s t : σ} (h : body i s = .ok (.inr r) t) :
    turns body (n + 1) i s = .ok (.inr r) t := bind_of_ok h

theorem turns_succ_of_error {n : Nat} {i : ι} {e : ε} {s t : σ} (h : body i s = .error e t) :
    turns body (n + 1) i s = .error e t := bind_of_error h

theorem turns_add {n k : Nat} {i j : ι} {s t : σ} (h : turns body n i s = .ok (.inl j) t) :
    turns body (n + k) i s = turns body k j t := by
  induction n generalizing i s with
  | zero =>
    cases h
    rw [Nat.zero_add]
  | succ n ih =>
    rw [Nat.succ_add]
    obtain ⟨c, u, hBody, hRest⟩ := bind_eq_ok h
    cases c with
    | inl i' =>
      rw [turns_succ_of_inl hBody]
      exact ih hRest
    | inr r => cases hRest

theorem turns_succ_last (n : Nat) (i : ι) :
    turns body (n + 1) i = turns body n i >>= fun
      | .inl j => body j
      | .inr r => pure (.inr r) := by
  induction n generalizing i with
  | zero =>
    funext s
    change (body i >>= _) s = body i s
    cases h : body i s with
    | ok c t =>
      rw [bind_of_ok h]
      cases c <;> rfl
    | error e t => exact bind_of_error h
  | succ n ih =>
    rw [turns, turns, bind_assoc]
    apply bind_congr
    rintro (j | r)
    · exact ih j
    · rfl

theorem turns_of_over {n : Nat} {i : ι} {s : σ}
    (h : ∀ j t, turns body n i s ≠ .ok (.inl j) t) (k : Nat) :
    turns body (n + k) i s = turns body n i s := by
  induction k with
  | zero => rfl
  | succ k ih =>
    rw [← Nat.add_assoc, turns_succ_last]
    cases hEq : turns body n i s with
    | error e t => exact bind_of_error (ih.trans hEq)
    | ok c t =>
      rw [bind_of_ok (ih.trans hEq)]
      cases c with
      | inl j => exact absurd hEq (h j t)
      | inr r => rfl

/-- However many turns are taken, there is one way to be over. -/
theorem turns_unique {n k : Nat} {i : ι} {s : σ} (hn : ∀ j t, turns body n i s ≠ .ok (.inl j) t)
    (hk : ∀ j t, turns body k i s ≠ .ok (.inl j) t) : turns body n i s = turns body k i s := by
  rw [← turns_of_over hn k, ← turns_of_over hk n, Nat.add_comm]

theorem turns_error {n : Nat} {i : ι} {s t : σ} {e : ε} (h : turns body n i s = .error e t) :
    ∃ k < n, ∃ j u, turns body k i s = .ok (.inl j) u ∧ body j u = .error e t := by
  induction n with
  | zero => cases h
  | succ n ih =>
    rw [turns_succ_last] at h
    cases hEq : turns body n i s with
    | error e' u =>
      rw [bind_of_error hEq] at h
      cases h
      obtain ⟨k, hk, hTurn⟩ := ih hEq
      exact ⟨k, Nat.lt_succ_of_lt hk, hTurn⟩
    | ok c u =>
      rw [bind_of_ok hEq] at h
      cases c with
      | inl j => exact ⟨n, Nat.lt_succ_self n, j, u, hEq, h⟩
      | inr r => cases h

/-- As long as no turn is bad, `I` holds whenever the loop goes on, and `F` of every state. -/
theorem turns_good {I : ι → σ → Prop} {F : σ → Prop} {Bad : ι → σ → Prop}
    (hStart : ∀ i s, I i s → F s)
    (hStep : ∀ i s, I i s → ¬Bad i s →
      F (final (body i s)) ∧ ∀ j t, body i s = .ok (.inl j) t → I j t)
    {i : ι} {s : σ} (hs : I i s) {n : Nat}
    (hNone : ∀ k < n, ∀ j t, turns body k i s = .ok (.inl j) t → ¬Bad j t) :
    F (final (turns body n i s)) ∧ ∀ j t, turns body n i s = .ok (.inl j) t → I j t := by
  induction n with
  | zero =>
    refine ⟨hStart i s hs, ?_⟩
    rintro j t ⟨⟩
    exact hs
  | succ n ih =>
    obtain ⟨hFinal, hNext⟩ := ih fun k hk => hNone k (Nat.lt_succ_of_lt hk)
    rw [turns_succ_last]
    cases hEq : turns body n i s with
    | ok c t =>
      rw [hEq] at hFinal
      rw [bind_of_ok hEq]
      cases c with
      | inl j => exact hStep j t (hNext j t hEq) (hNone n (Nat.lt_succ_self n) j t hEq)
      | inr r => exact ⟨hFinal, nofun⟩
    | error e t =>
      rw [hEq] at hFinal
      rw [bind_of_error hEq]
      exact ⟨hFinal, nofun⟩

/-- If good turns keep `I`, which implies `P`, and bad turns break `P`, then `P` holds all along
the runs that take no bad turn, and along no others. -/
theorem turns_forall_iff {I P : σ → Prop} {Bad : ι → σ → Prop} (hImplies : ∀ s, I s → P s)
    (hGood : ∀ i s, I s → ¬Bad i s → I (final (body i s)))
    (hBad : ∀ i s, I s → Bad i s → ¬P (final (body i s))) (i : ι) {s : σ} (hs : I s) :
    (∀ n, P (final (turns body n i s))) ↔
      ∀ n j t, turns body n i s = .ok (.inl j) t → ¬Bad j t := by
  have hRun : ∀ n, (∀ k < n, ∀ j t, turns body k i s = .ok (.inl j) t → ¬Bad j t) →
      I (final (turns body n i s)) := by
    intro n hNone
    have hStep : ∀ i s, I s → ¬Bad i s →
        I (final (body i s)) ∧ ∀ j t, body i s = .ok (.inl j) t → I t := by
      intro i s hI hNot
      have hFinal := hGood i s hI hNot
      refine ⟨hFinal, fun j t hEq => ?_⟩
      rwa [hEq] at hFinal
    have hStart : ∀ (_ : ι) s, I s → I s := fun _ _ => id
    exact (turns_good hStart hStep hs hNone).1
  constructor
  · intro hAll n
    induction n using Nat.strongRecOn with
    | ind n ih =>
      intro j t hEq hBadTurn
      have hBefore := hRun n ih
      have hNext := hAll (n + 1)
      rw [turns_succ_last, bind_of_ok hEq] at hNext
      rw [hEq] at hBefore
      exact hBad j t hBefore hBadTurn hNext
  · exact fun hNone n => hImplies _ (hRun n fun k _ => hNone k)

end Turns

end Manhattan.Library.ExecRules
