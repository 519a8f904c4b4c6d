import Mathlib

/-! # Streams that are received in pieces

A receiving call takes a piece off the front of a stream: at least one element, at most as
many as the call asks for, and otherwise any number. A `split` gives the numbers the network
chooses, one for each call; where a number is out of this range the nearest one in it counts,
so that every `split` is a possible one and every possible one is given by a `split`.
-/

namespace Manhattan.Library.Streams

universe u

variable {α : Type u}

/-- The size of the piece that a call for `wanted` elements takes. -/
def pieceSize (choice wanted : Nat) (stream : List α) : Nat :=
  min (max 1 choice) (min wanted stream.length)

theorem pieceSize_le (choice wanted : Nat) (stream : List α) :
    pieceSize choice wanted stream ≤ wanted ∧ pieceSize choice wanted stream ≤ stream.length := by
  unfold pieceSize
  omega

theorem pieceSize_pos (choice : Nat) {wanted : Nat} (hWanted : 0 < wanted) {stream : List α}
    (hStream : stream ≠ []) : 0 < pieceSize choice wanted stream := by
  have hLength := List.length_pos_iff.mpr hStream
  unfold pieceSize
  omega

theorem take_append_take_drop (stream : List α) {n wanted : Nat} (h : n ≤ wanted) :
    stream.take n ++ (stream.drop n).take (wanted - n) = stream.take wanted := by
  rw [← List.take_add, Nat.add_sub_cancel' h]

/-! ## Receiving until enough has come -/

/-- At most `calls` calls, until `wanted` elements have come. Nothing comes out if the stream
ends before: such a loop waits for ever. -/
def receiveLoop (split : Nat → Nat) : Nat → Nat → List α → Option (List α × List α)
  | _, 0, stream => some ([], stream)
  | 0, _ + 1, _ => none
  | calls + 1, wanted + 1, stream =>
    if stream.isEmpty then none
    else
      let size := pieceSize (split 0) (wanted + 1) stream
      (receiveLoop (fun i => split (i + 1)) calls (wanted + 1 - size) (stream.drop size)).map
        fun (got, rest) => (stream.take size ++ got, rest)

def receiveAll (split : Nat → Nat) (wanted : Nat) (stream : List α) : Option (List α × List α) :=
  receiveLoop split wanted wanted stream

theorem receiveLoop_succ (split : Nat → Nat) {calls wanted : Nat} {stream : List α}
    (hStream : stream ≠ []) {size : Nat} (hSize : size = pieceSize (split 0) (wanted + 1) stream) :
    receiveLoop split (calls + 1) (wanted + 1) stream =
      (receiveLoop (fun i => split (i + 1)) calls (wanted + 1 - size) (stream.drop size)).map
        fun (got, rest) => (stream.take size ++ got, rest) := by
  have hNotEmpty : ¬stream.isEmpty = true := by simpa using hStream
  rw [receiveLoop, if_neg hNotEmpty, hSize]

theorem receiveLoop_of_le (split : Nat → Nat) {calls wanted : Nat} (hCalls : wanted ≤ calls)
    {stream : List α} (hStream : wanted ≤ stream.length) :
    receiveLoop split calls wanted stream = some (stream.take wanted, stream.drop wanted) := by
  induction calls generalizing split wanted stream with
  | zero =>
    obtain rfl := Nat.le_zero.mp hCalls
    rfl
  | succ calls ih =>
    cases wanted with
    | zero => rfl
    | succ wanted =>
      have hNotNil : stream ≠ [] := List.ne_nil_of_length_pos (by omega)
      obtain ⟨size, hSize⟩ : ∃ size, size = pieceSize (split 0) (wanted + 1) stream := ⟨_, rfl⟩
      have hPos : 0 < size := hSize ▸ pieceSize_pos (split 0) (Nat.zero_lt_succ wanted) hNotNil
      have hWanted : size ≤ wanted + 1 := hSize ▸ (pieceSize_le (split 0) (wanted + 1) stream).1
      have hRest : wanted + 1 - size ≤ (stream.drop size).length := by
        rw [List.length_drop]
        omega
      rw [receiveLoop_succ split hNotNil hSize, ih _ (by omega) hRest]
      simp only [Option.map_some, take_append_take_drop stream hWanted, List.drop_drop,
        Nat.add_sub_cancel' hWanted]

theorem receiveLoop_of_lt (split : Nat → Nat) {calls wanted : Nat} {stream : List α}
    (hStream : stream.length < wanted) : receiveLoop split calls wanted stream = none := by
  induction calls generalizing split wanted stream with
  | zero =>
    cases wanted with
    | zero => cases hStream
    | succ wanted => rfl
  | succ calls ih =>
    cases wanted with
    | zero => cases hStream
    | succ wanted =>
      cases stream with
      | nil => rfl
      | cons a stream =>
        obtain ⟨size, hSize⟩ : ∃ size, size = pieceSize (split 0) (wanted + 1) (a :: stream) :=
          ⟨_, rfl⟩
        have hLe : size ≤ (a :: stream).length := hSize ▸ (pieceSize_le _ _ _).2
        have hRest : ((a :: stream).drop size).length < wanted + 1 - size := by
          rw [List.length_drop]
          omega
        rw [receiveLoop_succ split (List.cons_ne_nil a stream) hSize, ih _ hRest]
        rfl

/-- However the stream is split, the loop receives the same. -/
theorem receiveAll_eq (split : Nat → Nat) (wanted : Nat) (stream : List α) :
    receiveAll split wanted stream =
      if wanted ≤ stream.length then some (stream.take wanted, stream.drop wanted) else none := by
  unfold receiveAll
  split
  · rename_i hStream
    exact receiveLoop_of_le split (Nat.le_refl wanted) hStream
  · rename_i hStream
    exact receiveLoop_of_lt split (Nat.lt_of_not_le hStream)

end Manhattan.Library.Streams
