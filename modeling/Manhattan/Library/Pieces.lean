import Manhattan.Library.CStrings

/-! # Texts written piece by piece

Each piece is copied to where the text so far ends, so that its first character falls on the NUL
there. Where the pieces have one length, the text without its first pieces is the text of the
others.
-/

namespace Manhattan.Library.CStrings

variable {α β : Type*} {piece : α → CString} {c : Nat}

/-! ## Pieces of one length -/

theorem drop_flatMap {f : α → List β} (hPiece : ∀ x, (f x).length = c) {xs : List α} {n : Nat}
    (hn : n ≤ xs.length) (more : List β) :
    (xs.flatMap f ++ more).drop (c * n) = (xs.drop n).flatMap f ++ more := by
  induction n generalizing xs with
  | zero => rfl
  | succ n ih =>
    cases xs with
    | nil => cases hn
    | cons x xs =>
      rw [Nat.mul_succ, Nat.add_comm, ← List.drop_drop, List.flatMap_cons, List.append_assoc,
        ← hPiece x, List.drop_left, hPiece x, ih (Nat.le_of_succ_le_succ hn)]
      rfl

/-- A decoder that finds an element at the start of what is left of the text, turn by turn -/
theorem map_range_read {f : α → List β} {read : List β → α} (hPiece : ∀ x, (f x).length = c)
    (hRead : ∀ x more, read (f x ++ more) = x) (xs : List α) (more : List β) :
    ((List.range xs.length).map fun i => read ((xs.flatMap f ++ more).drop (c * i))) = xs := by
  apply List.ext_getElem
  · simp
  · intro i hi hi'
    rw [List.getElem_map, List.getElem_range, drop_flatMap hPiece hi'.le,
      List.drop_eq_getElem_cons hi', List.flatMap_cons, List.append_assoc, hRead]

namespace CString

/-- The pieces of the elements, one behind the other -/
def flatMap (piece : α → CString) (xs : List α) : CString where
  chars := xs.flatMap fun x => (piece x).chars
  noNul h := by
    obtain ⟨x, _, hMem⟩ := List.mem_flatMap.mp h
    exact (piece x).noNul hMem

theorem flatMap_append (xs ys : List α) :
    flatMap piece (xs ++ ys) = flatMap piece xs ++ flatMap piece ys :=
  CString.ext List.flatMap_append

@[simp] theorem flatMap_singleton (x : α) : flatMap piece [x] = piece x :=
  CString.ext (by simp [flatMap])

theorem length_flatMap (hPiece : ∀ x, (piece x).length = c) (xs : List α) :
    (flatMap piece xs).length = c * xs.length := by
  induction xs with
  | nil => rfl
  | cons x xs ih =>
    rw [← List.singleton_append, flatMap_append, length_append, flatMap_singleton, hPiece, ih,
      List.length_append, Nat.mul_add, List.length_singleton, Nat.mul_one]

theorem drop_flatMap (hPiece : ∀ x, (piece x).length = c) {xs : List α} {n : Nat}
    (hn : n ≤ xs.length) : (flatMap piece xs).drop (c * n) = flatMap piece (xs.drop n) := by
  have hDrop := CStrings.drop_flatMap hPiece hn []
  rw [List.append_nil, List.append_nil] at hDrop
  exact CString.ext hDrop

end CString

/-! ## A loop over the elements -/

namespace Region

variable {size offset : Nat} {r r' r'' : Region size} {text s : CString}

/-- `text` is written at `offset`; where there was an empty string, it ends behind `text` now. -/
structure Written (r r' : Region size) (offset : Nat) (text : CString) : Prop where
  before : r'.bytes.take offset = r.bytes.take offset
  front : (r'.bytes.drop offset).take text.length = text.chars
  behind : ∀ n, offset + text.length < n → r'.bytes.drop n = r.bytes.drop n
  string : r.string offset = some .empty → r'.string offset = some text

theorem Written.refl (r : Region size) (offset : Nat) : r.Written r offset .empty :=
  ⟨rfl, rfl, fun _ _ => rfl, id⟩

theorem Written.strcpy (h : r.Written r' offset text)
    (hCopy : r'.strcpy (offset + text.length) s = some r'') : r.Written r'' offset (text ++ s) := by
  have hFits := strcpy_fits hCopy
  have hTake := take_strcpy_add hCopy
  constructor
  · exact (take_strcpy hCopy (Nat.le_add_right _ _)).trans h.before
  · have hOffset : offset ≤ (r'.bytes.take (offset + text.length)).length := by
      rw [List.length_take, r'.length_bytes]
      omega
    rw [CString.length_append, List.take_drop, ← Nat.add_assoc, hTake,
      List.drop_append_of_le_length hOffset, ← List.take_drop, h.front]
    rfl
  · intro n hn
    rw [CString.length_append] at hn
    exact (drop_strcpy hCopy (by omega)).trans (h.behind n (by omega))
  · intro hEmpty
    have hString := string_strcpy_add (h.string hEmpty) (Nat.le_refl _) hCopy
    rwa [CString.take_of_length_le (Nat.le_refl _)] at hString

/-- A loop that copies the piece of the element `i` behind the first `i` pieces -/
theorem exists_written (hPiece : ∀ x, (piece x).length = c) {xs : List α}
    {step : Region size → Nat → Option (Region size)}
    (hStep : ∀ r i x, xs[i]? = some x → step r i = r.strcpy (offset + c * i) (piece x))
    (r : Region size) {n : Nat} (hn : n ≤ xs.length) (hRoom : offset + c * n < size) :
    ∃ r', (List.range n).foldlM step r = some r' ∧
      r.Written r' offset (.flatMap piece (xs.take n)) := by
  induction n with
  | zero => exact ⟨r, rfl, .refl r offset⟩
  | succ n ih =>
    rw [Nat.mul_succ] at hRoom
    obtain ⟨before, hBefore, hWritten⟩ := ih (Nat.le_of_succ_le hn) (by omega)
    have hLength : (CString.flatMap piece (xs.take n)).length = c * n := by
      rw [CString.length_flatMap hPiece, List.length_take_of_le (Nat.le_of_succ_le hn)]
    have hNext : step before n = before.strcpy (offset + c * n) (piece xs[n]) :=
      hStep before n xs[n] (List.getElem?_eq_getElem hn)
    obtain ⟨after, hAfter⟩ := before.exists_strcpy (offset + c * n) (piece xs[n])
      (by rw [hPiece]; omega)
    refine ⟨after, ?_, ?_⟩
    · rw [List.range_succ, List.foldlM_append, hBefore, Option.bind_eq_bind, Option.bind_some,
        List.foldlM_cons, hNext, hAfter]
      rfl
    · rw [List.take_succ_eq_append_getElem hn, CString.flatMap_append, CString.flatMap_singleton]
      rw [← hLength] at hAfter
      exact hWritten.strcpy hAfter

end Region

end Manhattan.Library.CStrings
