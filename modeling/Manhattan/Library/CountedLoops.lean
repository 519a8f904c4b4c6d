import Manhattan.Library.ExecRules

/-! # Loops that end

A loop ends as a program when it is over after a number of turns that is known beforehand, and
has done what the program does. Loops over a counter end as the passes over a range.
-/

namespace Manhattan.Library.ExecRules

variable {ε σ ι ρ α β : Type}

/-- From i on the loop is over after n turns, whatever the state, and is the program. -/
def EndsAs (body : ι → EStateM ε σ (ι ⊕ ρ)) (n : Nat) (i : ι) (run : EStateM ε σ ρ) : Prop :=
  turns body n i = run >>= fun r => pure (.inr r)

variable {body : ι → EStateM ε σ (ι ⊕ ρ)} {i : ι} {n : Nat}

theorem endsAs_return {r : ρ} (h : body i = pure (.inr r)) (n : Nat) :
    EndsAs body (n + 1) i (pure r) := by
  rw [EndsAs, turns, h]
  rfl

theorem endsAs_step {first : EStateM ε σ α} {next : α → ι} {run : α → EStateM ε σ ρ}
    (h : body i = first >>= fun a => pure (.inl (next a)))
    (hNext : ∀ a, EndsAs body n (next a) (run a)) : EndsAs body (n + 1) i (first >>= run) := by
  rw [EndsAs, turns, h, bind_assoc, bind_assoc]
  refine bind_congr fun a => ?_
  rw [pure_bind]
  exact hNext a

theorem endsAs_step₂ {first : EStateM ε σ α} {second : EStateM ε σ β} {next : ι}
    {run : EStateM ε σ ρ}
    (h : body i = first >>= fun _ => second >>= fun _ => pure (.inl next))
    (hNext : EndsAs body n next run) :
    EndsAs body (n + 1) i (first >>= fun _ => second >>= fun _ => run) := by
  simp only [← bind_assoc] at h ⊢
  exact endsAs_step h fun _ => hNext

/-- `for (i = 0; i < limit; i++) a[i] = f(i);` -/
def collect (limit : Nat) (f : Nat → EStateM ε σ α) :
    Nat × List α → EStateM ε σ ((Nat × List α) ⊕ List α)
  | (i, a) =>
    if i < limit then do
      let x ← f i
      return .inl (i + 1, a ++ [x])
    else return .inr a

theorem endsAs_collect_from {limit k i : Nat} (f : Nat → EStateM ε σ α) (h : i + k = limit)
    (a : List α) : EndsAs (collect limit f) (k + 1) (i, a)
      ((List.range' i k).mapM f >>= fun rest => pure (a ++ rest)) := by
  induction k generalizing i a with
  | zero =>
    have hBody : collect limit f (i, a) = pure (.inr a) := if_neg (by omega)
    rw [List.range'_zero, List.mapM_nil, pure_bind, List.append_nil]
    exact endsAs_return hBody 0
  | succ k ih =>
    have hBody : collect limit f (i, a) = f i >>= fun x => pure (.inl (i + 1, a ++ [x])) :=
      if_pos (by omega)
    rw [List.range'_succ, List.mapM_cons, bind_assoc]
    refine endsAs_step hBody fun x => ?_
    have hRest := ih (i := i + 1) (by omega) (a ++ [x])
    simpa only [bind_assoc, pure_bind, List.append_assoc, List.singleton_append] using hRest

theorem endsAs_collect (limit : Nat) (f : Nat → EStateM ε σ α) :
    EndsAs (collect limit f) (limit + 1) (0, []) ((List.range limit).mapM f) := by
  have h := endsAs_collect_from f (Nat.zero_add limit) []
  simpa only [List.nil_append, bind_pure, ← List.range_eq_range'] using h

/-- `for (i = 0; i < limit; i++) f(i);` -/
def each (limit : Nat) (f : Nat → EStateM ε σ Unit) (i : Nat) : EStateM ε σ (Nat ⊕ Unit) :=
  if i < limit then do
    f i
    return .inl (i + 1)
  else return .inr ()

theorem endsAs_each_from {limit k i : Nat} (f : Nat → EStateM ε σ Unit) (h : i + k = limit) :
    EndsAs (each limit f) (k + 1) i ((List.range' i k).forM f) := by
  induction k generalizing i with
  | zero =>
    have hBody : each limit f i = pure (.inr ()) := if_neg (by omega)
    exact endsAs_return hBody 0
  | succ k ih =>
    have hBody : each limit f i = f i >>= fun _ => pure (.inl (i + 1)) := if_pos (by omega)
    rw [List.range'_succ]
    exact endsAs_step hBody fun _ => ih (by omega)

theorem endsAs_each (limit : Nat) (f : Nat → EStateM ε σ Unit) :
    EndsAs (each limit f) (limit + 1) 0 ((List.range limit).forM f) := by
  rw [List.range_eq_range']
  exact endsAs_each_from f (Nat.zero_add limit)

/-- `for (i = n - 1; i >= 0; i--) f(i);`, on the number of turns that are left -/
def countdown (f : Nat → EStateM ε σ Unit) : Nat → EStateM ε σ (Nat ⊕ Unit)
  | 0 => return .inr ()
  | i + 1 => do
    f i
    return .inl i

theorem endsAs_countdown (n : Nat) (f : Nat → EStateM ε σ Unit) :
    EndsAs (countdown f) (n + 1) n ((List.range n).reverse.forM f) := by
  induction n with
  | zero => exact endsAs_return rfl 0
  | succ n ih =>
    rw [List.range_succ, List.reverse_append]
    exact endsAs_step rfl fun _ => ih

end Manhattan.Library.ExecRules
