import Manhattan.Library.StandardInput

/-! # What is left to be read

Each call leaves an end of its input. What only reads therefore comes to a point from which on it
reads nothing.
-/

namespace Manhattan.Library.StandardInput

open Library.CStrings Library.Conversions

/-- What `scanf("%d", ...)` leaves; a sign is taken even if no digit follows. -/
def scanfRest (input : List Byte) : List Byte :=
  match input.dropWhile isSpace with
  | 45 :: rest => rest.dropWhile isDigit
  | 43 :: rest => rest.dropWhile isDigit
  | rest => rest.dropWhile isDigit

theorem getchar_suffix (input : List Byte) : getchar input <:+ input := List.tail_suffix input

theorem fgets_suffix {room : Nat} (r : Region (room + 1)) (input : List Byte) :
    (fgets r input).2 <:+ input := by
  cases input with
  | nil => exact List.suffix_rfl
  | cons b input => exact List.drop_suffix _ _

theorem scanfRest_suffix (input : List Byte) : scanfRest input <:+ input := by
  have hSpace : input.dropWhile isSpace <:+ input := List.dropWhile_suffix _
  unfold scanfRest
  split
  · rename_i rest hSign
    rw [hSign] at hSpace
    exact (List.dropWhile_suffix _).trans ((List.suffix_cons _ _).trans hSpace)
  · rename_i rest hSign
    rw [hSign] at hSpace
    exact (List.dropWhile_suffix _).trans ((List.suffix_cons _ _).trans hSpace)
  · exact (List.dropWhile_suffix _).trans hSpace

/-- No number can be read, and not even white space or a sign is. -/
def Blocked (input : List Byte) : Prop :=
  ∀ b ∈ input.head?, isSpace b = false ∧ isDigit b = false ∧ b ≠ 43 ∧ b ≠ 45

theorem Blocked.dropWhile {input : List Byte} (h : Blocked input) :
    input.dropWhile isSpace = input ∧ input.dropWhile isDigit = input := by
  cases input with
  | nil => exact ⟨rfl, rfl⟩
  | cons b input =>
    obtain ⟨hSpace, hDigit, -, -⟩ := h b rfl
    exact ⟨List.dropWhile_cons_of_neg (by simp [hSpace]),
      List.dropWhile_cons_of_neg (by simp [hDigit])⟩

theorem Blocked.scanfRest {input : List Byte} (h : Blocked input) : scanfRest input = input := by
  obtain ⟨hSpace, hDigit⟩ := h.dropWhile
  unfold StandardInput.scanfRest
  rw [hSpace]
  split
  · exact absurd rfl (h 45 rfl).2.2.2
  · exact absurd rfl (h 43 rfl).2.2.1
  · exact hDigit

theorem blocked_of_scanfRest_eq {input : List Byte} (h : scanfRest input = input) :
    Blocked input := by
  have hSpace : input.dropWhile isSpace <:+ input := List.dropWhile_suffix _
  have hLost : ∀ b rest, input.dropWhile isSpace = b :: rest →
      rest.dropWhile isDigit ≠ input := by
    intro b rest hRest hSame
    have hShorter := (List.dropWhile_suffix isDigit (l := rest)).length_le
    have hLength := hSpace.length_le
    rw [hSame] at hShorter
    rw [hRest, List.length_cons] at hLength
    omega
  unfold scanfRest at h
  split at h
  · exact absurd h (hLost _ _ ‹_›)
  · exact absurd h (hLost _ _ ‹_›)
  · rename_i hMinus hPlus
    have hDigits : (input.dropWhile isSpace).dropWhile isDigit <:+ input.dropWhile isSpace :=
      List.dropWhile_suffix _
    have hAll : input.dropWhile isSpace = input := by
      rw [h] at hDigits
      exact hSpace.eq_of_length (hSpace.length_le.antisymm hDigits.length_le)
    rw [hAll] at h hMinus hPlus
    intro b hb
    obtain ⟨rest, rfl⟩ : ∃ rest, input = b :: rest := List.head?_eq_some_iff.mp hb
    refine ⟨?_, ?_, ?_, ?_⟩
    · exact Bool.eq_false_iff.mpr (List.dropWhile_eq_self_iff.mp hAll (Nat.succ_pos _))
    · exact Bool.eq_false_iff.mpr (List.dropWhile_eq_self_iff.mp h (Nat.succ_pos _))
    · rintro rfl
      exact hPlus rest rfl
    · rintro rfl
      exact hMinus rest rfl

theorem Blocked.scanfInt {input : List Byte} (h : Blocked input) (old : BitVec 32) :
    scanfInt input old = old := by
  obtain ⟨hSpace, -⟩ := h.dropWhile
  unfold StandardInput.scanfInt
  rw [hSpace]
  split
  · exact absurd rfl (h 45 rfl).2.2.2
  · exact absurd rfl (h 43 rfl).2.2.1
  · have hDigits : input.takeWhile isDigit = [] := by
      cases input with
      | nil => rfl
      | cons b input => exact List.takeWhile_cons_of_neg (by simp [(h b rfl).2.1])
    rw [readInt, hDigits]
    rfl

theorem exists_constant_of_suffix {α : Type*} (input : ℕ → List α)
    (h : ∀ n, input (n + 1) <:+ input n) : ∃ n, ∀ m, n ≤ m → input m = input n := by
  obtain ⟨_, ⟨n, rfl⟩, hShortest⟩ := WellFounded.has_min (wellFounded_lt (α := ℕ))
    (Set.range fun n => (input n).length) (Set.range_nonempty _)
  refine ⟨n, ?_⟩
  intro m hm
  have hEnd : input m <:+ input n := by
    induction m, hm using Nat.le_induction with
    | base => exact List.suffix_rfl
    | succ m _ ih => exact (h m).trans ih
  exact hEnd.eq_of_length (hEnd.length_le.antisymm (not_lt.mp (hShortest _ ⟨m, rfl⟩)))

end Manhattan.Library.StandardInput
