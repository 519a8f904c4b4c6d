import Mathlib

/-! # Texts put together with separators

A separator that no part contains shows where the parts end: from the left for the first
part, from the right for the last, and for all of them when each is followed by it. Records
made of such parts may even have parts with their own terminator in them, as long as it can
only be the last element of a part. With nothing between them the parts around a common one
can move against each other.
-/

namespace Manhattan.Library.Separated

variable {α : Type*} {sep : α} {xs ys zs ws : List α}

theorem head_inj (hx : sep ∉ xs) (hy : sep ∉ ys) (h : xs ++ sep :: zs = ys ++ sep :: ws) :
    xs = ys ∧ zs = ws := by
  induction xs generalizing ys with
  | nil =>
    cases ys with
    | nil => exact ⟨rfl, (List.cons.inj h).2⟩
    | cons y ys =>
      have hFirst : sep = y := (List.cons.inj h).1
      exact absurd (hFirst ▸ List.mem_cons_self) hy
  | cons x xs ih =>
    cases ys with
    | nil =>
      have hFirst : x = sep := (List.cons.inj h).1
      exact absurd (hFirst ▸ List.mem_cons_self) hx
    | cons y ys =>
      obtain ⟨rfl, hRest⟩ := List.cons.inj h
      obtain ⟨rfl, hTail⟩ := ih (fun hMem => hx (List.mem_cons_of_mem x hMem))
        (fun hMem => hy (List.mem_cons_of_mem x hMem)) hRest
      exact ⟨rfl, hTail⟩

theorem last_inj (hz : sep ∉ zs) (hw : sep ∉ ws) (h : xs ++ sep :: zs = ys ++ sep :: ws) :
    xs = ys ∧ zs = ws := by
  have hReverse : zs.reverse ++ sep :: xs.reverse = ws.reverse ++ sep :: ys.reverse := by
    simpa using congrArg List.reverse h
  obtain ⟨hLast, hFirst⟩ := head_inj (fun hMem => hz (List.mem_reverse.mp hMem))
    (fun hMem => hw (List.mem_reverse.mp hMem)) hReverse
  exact ⟨List.reverse_injective hFirst, List.reverse_injective hLast⟩

/-- Each part with the separator behind it. -/
def terminated (sep : α) (parts : List (List α)) : List α := parts.flatMap fun part => part ++ [sep]

@[simp] theorem terminated_nil : terminated sep [] = [] := rfl

@[simp] theorem terminated_cons (part : List α) (parts : List (List α)) :
    terminated sep (part :: parts) = part ++ sep :: terminated sep parts := by
  simp [terminated]

theorem terminated_append (parts parts' : List (List α)) :
    terminated sep (parts ++ parts') = terminated sep parts ++ terminated sep parts' :=
  List.flatMap_append

theorem length_terminated (parts : List (List α)) :
    (terminated sep parts).length = (parts.map List.length).sum + parts.length := by
  induction parts with
  | nil => rfl
  | cons part parts ih =>
    rw [terminated_cons, List.length_append, List.length_cons, ih]
    simp
    omega

theorem terminated_concat (parts : List (List α)) (part : List α) :
    terminated sep (parts ++ [part]) = terminated sep parts ++ part ++ [sep] := by
  simp [terminated]

theorem terminated_eq_nil_or (parts : List (List α)) :
    terminated sep parts = [] ∨ ∃ before, terminated sep parts = before ++ [sep] := by
  induction parts using List.reverseRecOn with
  | nil => exact .inl rfl
  | append_singleton parts part _ => exact .inr ⟨_, terminated_concat parts part⟩

theorem terminated_concat_inj {parts parts' : List (List α)} (hx : sep ∉ xs) (hy : sep ∉ ys)
    (h : terminated sep (parts ++ [xs]) = terminated sep (parts' ++ [ys])) :
    terminated sep parts = terminated sep parts' ∧ xs = ys := by
  rw [terminated_concat, terminated_concat] at h
  have hText := List.append_cancel_right h
  rcases @terminated_eq_nil_or _ sep parts with hNil | ⟨before, hBefore⟩ <;>
    rcases @terminated_eq_nil_or _ sep parts' with hNil' | ⟨before', hBefore'⟩
  · rw [hNil, hNil'] at hText ⊢
    exact ⟨rfl, hText⟩
  · have hMem : sep ∈ xs := by
      rw [← List.nil_append xs, ← hNil, hText, hBefore']
      simp
    exact absurd hMem hx
  · have hMem : sep ∈ ys := by
      rw [← List.nil_append ys, ← hNil', ← hText, hBefore]
      simp
    exact absurd hMem hy
  · rw [hBefore, hBefore', List.append_assoc, List.append_assoc] at hText
    obtain ⟨rfl, hLast⟩ := last_inj hx hy hText
    exact ⟨hBefore.trans hBefore'.symm, hLast⟩

/-! ## Records -/

theorem followed_of_terminated {stop : α} (hApart : sep ≠ stop) {parts : List (List α)}
    (hParts : ∀ p ∈ parts, stop ∉ p.dropLast) (h : terminated sep parts = xs ++ stop :: ys) :
    ys.head? = some sep := by
  induction parts generalizing xs with
  | nil => simp at h
  | cons p parts ih =>
    rw [terminated_cons] at h
    rcases List.append_eq_append_iff.mp h with ⟨m, rfl, hRest⟩ | ⟨m, rfl, hRest⟩
    · cases m with
      | nil => exact absurd (List.cons.inj hRest).1 hApart
      | cons first m =>
        exact ih (fun q hq => hParts q (List.mem_cons_of_mem p hq)) (List.cons.inj hRest).2
    · cases m with
      | nil => exact absurd (List.cons.inj hRest).1.symm hApart
      | cons first m =>
        obtain ⟨rfl, rfl⟩ := List.cons.inj hRest
        cases m with
        | nil => rfl
        | cons second m =>
          have hInside : stop ∉ (xs ++ stop :: second :: m).dropLast :=
            hParts _ List.mem_cons_self
          simp at hInside

theorem record_inj {stop : α} (hApart : sep ≠ stop) {parts parts' : List (List α)}
    (hParts : ∀ p ∈ parts, stop ∉ p.dropLast) (hParts' : ∀ p ∈ parts', stop ∉ p.dropLast)
    (hRest : xs.head? ≠ some sep) (hRest' : ys.head? ≠ some sep)
    (h : terminated sep parts ++ stop :: xs = terminated sep parts' ++ stop :: ys) :
    terminated sep parts = terminated sep parts' ∧ xs = ys := by
  have hShorter : ∀ {q q' : List (List α)} {us vs m : List α},
      (∀ p ∈ q, stop ∉ p.dropLast) → vs.head? ≠ some sep →
      terminated sep q = terminated sep q' ++ m → stop :: vs = m ++ stop :: us → m = [] := by
    intro q q' us vs m hq hvs hLonger hTail
    cases m with
    | nil => rfl
    | cons first m =>
      have hFirst : stop = first := (List.cons.inj hTail).1
      have hRest : vs = m ++ stop :: us := (List.cons.inj hTail).2
      subst hFirst
      rw [hRest, List.head?_append, followed_of_terminated hApart hq hLonger] at hvs
      exact absurd rfl hvs
  rcases List.append_eq_append_iff.mp h with ⟨m, hLonger, hTail⟩ | ⟨m, hLonger, hTail⟩
  · obtain rfl := hShorter hParts' hRest hLonger hTail
    exact ⟨by rw [hLonger, List.append_nil], (List.cons.inj hTail).2⟩
  · obtain rfl := hShorter hParts hRest' hLonger hTail
    exact ⟨by rw [hLonger, List.append_nil], (List.cons.inj hTail).2.symm⟩

/-! ## Parts counted -/

section

variable [DecidableEq α]

theorem length_le_count (sep : α) (parts : List (List α)) :
    parts.length ≤ (terminated sep parts).count sep := by
  induction parts with
  | nil => exact Nat.le_refl 0
  | cons p parts ih =>
    rw [terminated_cons, List.count_append, List.count_cons_self, List.length_cons]
    omega

theorem count_terminated {parts : List (List α)} (h : ∀ p ∈ parts, sep ∉ p) :
    (terminated sep parts).count sep = parts.length := by
  induction parts with
  | nil => rfl
  | cons p parts ih =>
    have hp : p.count sep = 0 := List.count_eq_zero.mpr (h p List.mem_cons_self)
    rw [terminated_cons, List.count_append, List.count_cons_self, hp,
      ih fun q hq => h q (List.mem_cons_of_mem p hq), List.length_cons, Nat.zero_add]

end

/-- Parts without the separator are the only ones of that number with their text. -/
theorem terminated_inj_of_length {parts parts' : List (List α)} (hParts : ∀ p ∈ parts, sep ∉ p)
    (hLength : parts.length = parts'.length)
    (h : terminated sep parts = terminated sep parts') : parts = parts' := by
  classical
  induction parts generalizing parts' with
  | nil => exact (List.length_eq_zero_iff.mp hLength.symm).symm
  | cons p parts ih =>
    cases parts' with
    | nil => cases hLength
    | cons q parts' =>
      rw [terminated_cons, terminated_cons] at h
      have hLength' : parts.length = parts'.length := Nat.succ.inj hLength
      have hp : sep ∉ p := hParts p List.mem_cons_self
      have hRest : ∀ r ∈ parts, sep ∉ r := fun r hr => hParts r (List.mem_cons_of_mem p hr)
      have hq : sep ∉ q := by
        have hCount := congrArg (List.count sep) h
        have hLess := length_le_count sep parts'
        rw [List.count_append, List.count_append, List.count_cons_self, List.count_cons_self,
          List.count_eq_zero.mpr hp, count_terminated hRest] at hCount
        exact List.count_eq_zero.mp (by omega)
      obtain ⟨rfl, hTail⟩ := head_inj hp hq h
      rw [ih hRest hLength' hTail]

theorem terminated_inj {parts parts' : List (List α)} (hParts : ∀ p ∈ parts, sep ∉ p)
    (hParts' : ∀ p ∈ parts', sep ∉ p) (h : terminated sep parts = terminated sep parts') :
    parts = parts' := by
  classical
  have hLength := congrArg (List.count sep) h
  rw [count_terminated hParts, count_terminated hParts'] at hLength
  exact terminated_inj_of_length hParts hLength h

/-! ## Lines -/

section

variable [DecidableEq α]

theorem terminated_splitOn (sep : α) (xs : List α) : terminated sep (xs.splitOn sep) = xs ++ [sep] := by
  induction xs with
  | nil => simp [List.splitOn_nil]
  | cons x xs ih =>
    obtain ⟨part, parts, hParts⟩ := List.exists_cons_of_ne_nil (List.splitOn_ne_nil sep xs)
    rw [hParts] at ih
    rw [List.splitOn_cons_eq_if_modifyHead, hParts]
    split
    · rename_i hx
      rw [terminated_cons, ih, beq_iff_eq.mp hx]
      rfl
    · rw [List.modifyHead_cons, terminated_cons, List.cons_append, ← terminated_cons, ih]
      rfl

theorem notMem_splitOn (sep : α) (xs : List α) : ∀ p ∈ xs.splitOn sep, sep ∉ p := by
  induction xs with
  | nil => simp [List.splitOn_nil]
  | cons x xs ih =>
    obtain ⟨part, parts, hParts⟩ := List.exists_cons_of_ne_nil (List.splitOn_ne_nil sep xs)
    rw [hParts] at ih
    obtain ⟨hPart, hRest⟩ := List.forall_mem_cons.mp ih
    rw [List.splitOn_cons_eq_if_modifyHead, hParts]
    split
    · exact List.forall_mem_cons.mpr ⟨List.not_mem_nil, List.forall_mem_cons.mpr ⟨hPart, hRest⟩⟩
    · rename_i hx
      refine List.forall_mem_cons.mpr ⟨?_, hRest⟩
      rw [List.mem_cons, not_or]
      exact ⟨fun hEq => hx (beq_iff_eq.mpr hEq.symm), hPart⟩

end

/-! ## Nothing between -/

/-- `before` goes over into `after` at the cost of what follows: `p` moves by the length of `u`. -/
structure Moves (p : List α) (before after before' after' : List α) (u v : List α) : Prop where
  shift : u ++ p = p ++ v
  front : before' = before ++ u
  back : after = v ++ after'

theorem moves_of_append_eq {p before after before' after' : List α}
    (h : before ++ (p ++ after) = before' ++ (p ++ after')) (hLength : before.length ≤ before'.length) :
    ∃ u v, Moves p before after before' after' u v := by
  rcases List.append_eq_append_iff.mp h with ⟨u, hFront, hRest⟩ | ⟨u, hFront, hRest⟩
  · rw [← List.append_assoc] at hRest
    rcases List.append_eq_append_iff.mp hRest with ⟨v, hShift, hBack⟩ | ⟨v, hShift, hBack⟩
    · exact ⟨u, v, hShift, hFront, hBack⟩
    · have hLengths := congrArg List.length hShift
      simp only [List.length_append] at hLengths
      obtain rfl : u = [] := List.length_eq_zero_iff.mp (by omega)
      obtain rfl : v = [] := List.length_eq_zero_iff.mp (by omega)
      exact ⟨[], [], by simp, hFront, hBack.symm⟩
  · have hLengths := congrArg List.length hFront
    rw [List.length_append] at hLengths
    obtain rfl : u = [] := List.length_eq_zero_iff.mp (by omega)
    exact ⟨[], [], by simp, by simpa using hFront.symm, (List.append_cancel_left hRest).symm⟩

theorem Moves.append_eq {p before after before' after' u v : List α}
    (h : Moves p before after before' after' u v) :
    before ++ (p ++ after) = before' ++ (p ++ after') := by
  obtain ⟨hShift, rfl, rfl⟩ := h
  rw [List.append_assoc before, ← List.append_assoc u, hShift, List.append_assoc]

end Manhattan.Library.Separated
