import Manhattan.Library.Separated

/-! # Texts made of labelled values

Each value stands behind its label and is followed by a separator, and a record ends with one more.
A value may end with a separator of its own, as a label follows, which does not begin with one. Only
the last value of a record may not.
-/

namespace Manhattan.Library.Labelled

open Separated

variable {α : Type*} {sep : α} {label v v' xs ys : List α}
  {labels values values' : List (List α)}

def entry (sep : α) (label value : List α) : List α := label ++ value ++ [sep]

def entries (sep : α) (labels values : List (List α)) : List α :=
  (List.zipWith (entry sep) labels values).flatten

def record (sep : α) (labels values : List (List α)) : List α := entries sep labels values ++ [sep]

/-- No label begins with the separator, and none is empty. -/
def Labels (sep : α) (labels : List (List α)) : Prop :=
  ∀ label ∈ labels, ∃ first more, label = first :: more ∧ first ≠ sep

/-- The values of a record that can be told apart. -/
structure Told (sep : α) (values : List (List α)) : Prop where
  inner : ∀ v ∈ values, sep ∉ v.dropLast
  last : ∀ v ∈ values.getLast?, sep ∉ v

/-! ## One value -/

theorem value_inj (hv : sep ∉ v.dropLast) (hv' : sep ∉ v'.dropLast) (hxs : xs.head? ≠ some sep)
    (hys : ys.head? ≠ some sep) (h : v ++ sep :: xs = v' ++ sep :: ys) : v = v' ∧ xs = ys := by
  have hShorter : ∀ {v v' m xs ys : List α}, sep ∉ v'.dropLast → xs.head? ≠ some sep →
      v' = v ++ m → sep :: xs = m ++ sep :: ys → m = [] := by
    intro v v' m xs ys hv' hxs hLonger hTail
    cases m with
    | nil => rfl
    | cons first m =>
      obtain ⟨rfl, rfl⟩ := List.cons.inj hTail
      cases m with
      | nil => exact absurd rfl hxs
      | cons second m =>
        rw [hLonger] at hv'
        simp at hv'
  obtain ⟨m, hLonger, hTail⟩ | ⟨m, hLonger, hTail⟩ := List.append_eq_append_iff.mp h
  · obtain rfl := hShorter hv' hxs hLonger hTail
    exact ⟨by rw [hLonger, List.append_nil], (List.cons.inj hTail).2⟩
  · obtain rfl := hShorter hv hys hLonger hTail
    exact ⟨by rw [hLonger, List.append_nil], (List.cons.inj hTail).2.symm⟩

/-! ## One record -/

theorem record_cons_append (label v : List α) (labels values : List (List α)) (xs : List α) :
    record sep (label :: labels) (v :: values) ++ xs =
      label ++ (v ++ sep :: (record sep labels values ++ xs)) := by
  simp [record, entries, entry]

theorem head_record (hLabels : Labels sep (label :: labels)) (v : List α)
    (values : List (List α)) (xs : List α) :
    (record sep (label :: labels) (v :: values) ++ xs).head? ≠ some sep := by
  obtain ⟨first, more, rfl, hFirst⟩ := hLabels label List.mem_cons_self
  rw [record_cons_append]
  exact fun h => hFirst (Option.some.inj h)

theorem Told.tail (h : Told sep (v :: v' :: values)) : Told sep (v' :: values) where
  inner w hw := h.inner w (List.mem_cons_of_mem v hw)
  last w hw := h.last w (by rwa [List.getLast?_cons_cons])

theorem record_inj (hLabels : Labels sep (label :: labels)) (h : Told sep values)
    (h' : Told sep values') (hLength : values.length = (label :: labels).length)
    (hLength' : values'.length = (label :: labels).length)
    (hText : record sep (label :: labels) values ++ xs = record sep (label :: labels) values' ++ ys) :
    values = values' ∧ xs = ys := by
  induction labels generalizing label values values' with
  | nil =>
    obtain ⟨v, rfl⟩ := List.length_eq_one_iff.mp hLength
    obtain ⟨v', rfl⟩ := List.length_eq_one_iff.mp hLength'
    rw [record_cons_append, record_cons_append] at hText
    obtain ⟨rfl, hRest⟩ := head_inj (h.last v rfl) (h'.last v' rfl)
      (List.append_cancel_left hText)
    exact ⟨rfl, (List.cons.inj hRest).2⟩
  | cons next labels ih =>
    match values, values', hLength, hLength' with
    | v :: w :: values, v' :: w' :: values', hLength, hLength' =>
      have hNext : Labels sep (next :: labels) := fun l hl =>
        hLabels l (List.mem_cons_of_mem label hl)
      rw [record_cons_append label v, record_cons_append label v'] at hText
      obtain ⟨rfl, hRest⟩ := value_inj (h.inner v List.mem_cons_self)
        (h'.inner v' List.mem_cons_self) (head_record hNext w values xs)
        (head_record hNext w' values' ys) (List.append_cancel_left hText)
      obtain ⟨hMore, hLast⟩ := ih hNext h.tail h'.tail (Nat.succ.inj hLength)
        (Nat.succ.inj hLength') hRest
      exact ⟨by rw [hMore], hLast⟩

/-! ## All records -/

theorem record_ne_nil (labels values : List (List α)) : record sep labels values ≠ [] :=
  List.append_ne_nil_of_right_ne_nil _ (List.cons_ne_nil sep [])

theorem flatMap_record_inj (hLabels : Labels sep (label :: labels))
    {rows rows' : List (List (List α))}
    (h : ∀ row ∈ rows, Told sep row ∧ row.length = (label :: labels).length)
    (h' : ∀ row ∈ rows', Told sep row ∧ row.length = (label :: labels).length)
    (hText : rows.flatMap (record sep (label :: labels)) =
      rows'.flatMap (record sep (label :: labels))) : rows = rows' := by
  induction rows generalizing rows' with
  | nil =>
    cases rows' with
    | nil => rfl
    | cons row' rows' => exact absurd (List.append_eq_nil_iff.mp hText.symm).1 (record_ne_nil _ _)
  | cons row rows ih =>
    cases rows' with
    | nil => exact absurd (List.append_eq_nil_iff.mp hText).1 (record_ne_nil _ _)
    | cons row' rows' =>
      obtain ⟨⟨hRow, hLength⟩, hRest⟩ := List.forall_mem_cons.mp h
      obtain ⟨⟨hRow', hLength'⟩, hRest'⟩ := List.forall_mem_cons.mp h'
      rw [List.flatMap_cons, List.flatMap_cons] at hText
      obtain ⟨rfl, hMore⟩ := record_inj hLabels hRow hRow' hLength hLength' hText
      rw [ih hRest hRest' hMore]

end Manhattan.Library.Labelled
