import Manhattan.Library.CStrings

/-! # get_public_ip

The reply of the service is received in pieces into a buffer on the stack, and each piece is put
behind a string on the heap that `realloc` makes longer. `recv` may write 2097151 bytes into the
1024 of the buffer, and the string starts as whatever is in the memory that `malloc` gives.
-/

namespace Manhattan.Nodes

open Library.CStrings

/-- What a `recv` of `BUFFER_SIZE - 1` bytes receives -/
structure Chunk where
  bytes : List Byte
  nonempty : bytes ≠ []
  length_le : bytes.length ≤ 2097151

/-- The result that ends the loop -/
inductive LastResult
  | closed
  | failed
  deriving DecidableEq

/-- What is in the memory that `malloc` gives, and what call `k` of `realloc` gives at an index
where the block has grown. -/
structure Heap where
  fresh : Region 1024
  grown : Nat → Nat → Byte

def realloc (old : List Byte) (size : Nat) (grown : Nat → Byte) : List Byte :=
  (List.range size).map fun i => old.getD i (grown i)

def strcat (dst : List Byte) (src : CString) : Option (List Byte) := do
  let text ← scan dst
  if (text ++ src).length < dst.length then
    return (text ++ src).chars ++ 0 :: dst.drop ((text ++ src).length + 1)
  else none

/-- `response` after the turns of the loop. Nothing comes out if strcat leaves its block, or if the
size for realloc is larger than an `int`. -/
def collect (heap : Heap) : Nat → Nat → List Byte → List Chunk → Option (List Byte)
  | _, _, response, [] => some response
  | k, responseLength, response, chunk :: rest => do
    let buffer ← scan (chunk.bytes ++ [0])
    let responseLength := responseLength + chunk.bytes.length
    if responseLength + 1 < 2 ^ 31 then
      let response ← strcat (realloc response (responseLength + 1) (heap.grown k)) buffer
      collect heap (k + 1) responseLength response rest
    else none

/-- The indices of `buffer` that are written, and what is returned: a string or NULL. -/
structure PublicIp where
  bufferWrites : List Nat
  returned : Option (Option CString)

/-- From `malloc` on. Behind each piece a NUL is written. -/
def getPublicIp (heap : Heap) (chunks : List Chunk) (last : LastResult) : PublicIp where
  bufferWrites := chunks.flatMap fun chunk => List.range (chunk.bytes.length + 1)
  returned := do
    let response ← collect heap 0 0 heap.fresh.bytes chunks
    match last with
    | .failed => return none
    | .closed => return some (← scan response)

def reply (chunks : List Chunk) : List Byte := chunks.flatMap Chunk.bytes

def WithoutNul (chunks : List Chunk) : Prop := ∀ chunk ∈ chunks, 0 ∉ chunk.bytes

structure CollectsReply (heap : Heap) (chunks : List Chunk) (last : LastResult) : Prop where
  inside : ∀ i ∈ (getPublicIp heap chunks last).bufferWrites, i < 1024
  whole : last = .closed → WithoutNul chunks → ∃ text,
    (getPublicIp heap chunks last).returned = some (some text) ∧ text.chars = reply chunks

/-! ## The heap -/

theorem length_realloc (old : List Byte) (size : Nat) (grown : Nat → Byte) :
    (realloc old size grown).length = size := by
  rw [realloc, List.length_map, List.length_range]

theorem take_realloc {old : List Byte} {size n : Nat} (grown : Nat → Byte) (hOld : n ≤ old.length)
    (hSize : n ≤ size) : (realloc old size grown).take n = old.take n := by
  apply List.ext_getElem
  · rw [List.length_take, List.length_take, length_realloc]
    omega
  · intro i hi _
    rw [List.length_take] at hi
    have hInside : i < old.length := by omega
    rw [List.getElem_take, List.getElem_take]
    simp only [realloc, List.getElem_map, List.getElem_range]
    rw [List.getD_eq_getElem?_getD, List.getElem?_eq_getElem hInside, Option.getD_some]

theorem length_lt_of_scan {bytes : List Byte} {s : CString} (h : scan bytes = some s) :
    s.length < bytes.length := by
  obtain ⟨rest, rfl⟩ := exists_of_scan h
  rw [List.length_append, List.length_cons]
  exact Nat.lt_add_of_pos_right (Nat.succ_pos _)

theorem scan_realloc {old : List Byte} {text : CString} {size : Nat} (grown : Nat → Byte)
    (hText : scan old = some text) (hSize : text.length < size) :
    scan (realloc old size grown) = some text := by
  have hOld := length_lt_of_scan hText
  have hMem := mem_take_of_scan hText (Nat.lt_succ_self text.length)
  exact (scan_eq_of_take_eq hMem (take_realloc grown hOld hSize)).trans hText

theorem exists_strcat {dst : List Byte} {text src : CString} (hText : scan dst = some text)
    (hRoom : (text ++ src).length < dst.length) :
    ∃ dst', strcat dst src = some dst' ∧ scan dst' = some (text ++ src) := by
  refine ⟨_, ?_, scan_terminated (text ++ src) (dst.drop ((text ++ src).length + 1))⟩
  simp only [strcat, hText, Option.bind_eq_bind, Option.bind_some, if_pos hRoom]
  rfl

theorem strcat_eq_none {dst : List Byte} {src : CString} (hFirst : dst.head? ≠ some 0)
    (hSize : dst.length ≤ src.length + 1) : strcat dst src = none := by
  cases hText : scan dst with
  | none => rw [strcat, hText]; rfl
  | some text =>
    have hLength : text.length ≠ 0 := by
      intro hEmpty
      obtain ⟨rest, hDst⟩ := exists_of_scan hText
      rw [List.eq_nil_of_length_eq_zero hEmpty] at hDst
      rw [hDst] at hFirst
      exact hFirst rfl
    have hRoom : ¬(text ++ src).length < dst.length := by
      rw [CString.length_append]
      omega
    simp only [strcat, hText, Option.bind_eq_bind, Option.bind_some, if_neg hRoom]

/-! ## The loop -/

theorem scan_chunk {chunk : Chunk} (h : 0 ∉ chunk.bytes) :
    scan (chunk.bytes ++ [0]) = some ⟨chunk.bytes, h⟩ := scan_terminated ⟨chunk.bytes, h⟩ []

theorem exists_collect (heap : Heap) {chunks : List Chunk} (hNul : WithoutNul chunks) {k : Nat}
    {response : List Byte} {text : CString} (hText : scan response = some text)
    (hTotal : text.length + (reply chunks).length + 1 < 2 ^ 31) :
    ∃ response' text', collect heap k text.length response chunks = some response' ∧
      scan response' = some text' ∧ text'.chars = text.chars ++ reply chunks := by
  induction chunks generalizing k response text with
  | nil => exact ⟨response, text, rfl, hText, (List.append_nil _).symm⟩
  | cons chunk rest ih =>
    have hChunk : 0 ∉ chunk.bytes := hNul chunk List.mem_cons_self
    have hReply : reply (chunk :: rest) = chunk.bytes ++ reply rest := List.flatMap_cons
    have hNext : (text ++ ⟨chunk.bytes, hChunk⟩ : CString).length =
        text.length + chunk.bytes.length := CString.length_append _ _
    rw [hReply, List.length_append] at hTotal
    have hGrown := scan_realloc (heap.grown k) hText
      (by omega : text.length < text.length + chunk.bytes.length + 1)
    obtain ⟨next, hStrcat, hScan⟩ := exists_strcat hGrown
      (by rw [length_realloc, hNext]; exact Nat.lt_succ_self _ :
        (text ++ ⟨chunk.bytes, hChunk⟩ : CString).length < _)
    obtain ⟨response', text', hRest, hFinal, hChars⟩ := ih
      (fun chunk hIn => hNul chunk (List.mem_cons_of_mem _ hIn)) (k := k + 1) hScan
      (by rw [hNext]; omega)
    refine ⟨response', text', ?_, hFinal, ?_⟩
    · rw [hNext] at hRest
      simp only [collect, scan_chunk hChunk, Option.bind_eq_bind, Option.bind_some,
        if_pos (by omega : text.length + chunk.bytes.length + 1 < 2 ^ 31), hStrcat, hRest]
    · rw [hChars, hReply, ← List.append_assoc]
      rfl

theorem total_lt_of_collect {heap : Heap} {chunks : List Chunk} {k responseLength : Nat}
    {response response' : List Byte}
    (h : collect heap k responseLength response chunks = some response') :
    chunks = [] ∨ responseLength + (reply chunks).length + 1 < 2 ^ 31 := by
  induction chunks generalizing k responseLength response with
  | nil => exact .inl rfl
  | cons chunk rest ih =>
    right
    have hReply : reply (chunk :: rest) = chunk.bytes ++ reply rest := List.flatMap_cons
    obtain ⟨buffer, _, h⟩ := Option.bind_eq_some_iff.mp h
    dsimp only at h
    split at h
    · rename_i hFits
      obtain ⟨next, _, h⟩ := Option.bind_eq_some_iff.mp h
      rw [hReply, List.length_append]
      obtain rfl | hRest := ih h
      · change responseLength + (chunk.bytes.length + 0) + 1 < 2 ^ 31
        omega
      · omega
    · cases h

theorem collect_of_garbage (heap : Heap) {chunk : Chunk} (rest : List Chunk)
    (hNul : 0 ∉ chunk.bytes) {response : List Byte} (hNonempty : 0 < response.length)
    (hFirst : response.head? ≠ some 0) : collect heap 0 0 response (chunk :: rest) = none := by
  have hHead : (realloc response (0 + chunk.bytes.length + 1) (heap.grown 0)).head? ≠ some 0 := by
    have hTake := take_realloc (heap.grown 0) hNonempty
      (Nat.le_add_left 1 (0 + chunk.bytes.length))
    have hSame := congrArg List.head? hTake
    rw [List.head?_take, List.head?_take, if_neg Nat.one_ne_zero, if_neg Nat.one_ne_zero] at hSame
    rwa [hSame]
  have hSize : (realloc response (0 + chunk.bytes.length + 1) (heap.grown 0)).length ≤
      (⟨chunk.bytes, hNul⟩ : CString).length + 1 := by
    rw [length_realloc, Nat.zero_add]
    exact Nat.le_refl _
  simp only [collect, scan_chunk hNul, Option.bind_eq_bind, Option.bind_some,
    strcat_eq_none hHead hSize, Option.bind_none, ite_self]

/-! ## The whole call -/

theorem inside_iff (heap : Heap) (chunks : List Chunk) (last : LastResult) :
    (∀ i ∈ (getPublicIp heap chunks last).bufferWrites, i < 1024) ↔
      ∀ chunk ∈ chunks, chunk.bytes.length ≤ 1023 := by
  simp only [getPublicIp, List.mem_flatMap, List.mem_range]
  constructor
  · intro h chunk hIn
    have hEnd := h chunk.bytes.length ⟨chunk, hIn, Nat.lt_succ_self _⟩
    omega
  · rintro h i ⟨chunk, hIn, hi⟩
    have hShort := h chunk hIn
    omega

theorem returned_iff (heap : Heap) {chunks : List Chunk} (hNul : WithoutNul chunks) :
    (∃ text, (getPublicIp heap chunks .closed).returned = some (some text) ∧
        text.chars = reply chunks) ↔
      heap.fresh.bytes.head? = some 0 ∧ (reply chunks).length + 1 < 2 ^ 31 := by
  constructor
  · rintro ⟨text, hReturned, hChars⟩
    obtain ⟨response, hCollect, hText⟩ := Option.bind_eq_some_iff.mp hReturned
    obtain ⟨text', hScan, hSome⟩ := Option.bind_eq_some_iff.mp hText
    obtain rfl : text' = text := Option.some.inj (Option.some.inj hSome)
    have hNonempty : 0 < heap.fresh.bytes.length := by
      rw [heap.fresh.length_bytes]
      decide
    cases chunks with
    | nil =>
      obtain rfl := Option.some.inj hCollect
      obtain ⟨rest, hFresh⟩ := exists_of_scan hScan
      rw [hFresh, hChars]
      exact ⟨rfl, by decide⟩
    | cons chunk rest =>
      refine ⟨?_, ?_⟩
      · by_contra hFirst
        rw [collect_of_garbage heap rest (hNul chunk List.mem_cons_self) hNonempty hFirst]
          at hCollect
        cases hCollect
      · obtain hNone | hTotal := total_lt_of_collect hCollect
        · cases hNone
        · rwa [Nat.zero_add] at hTotal
  · rintro ⟨hFirst, hTotal⟩
    obtain ⟨tail, hFresh⟩ := List.head?_eq_some_iff.mp hFirst
    have hEmpty : scan heap.fresh.bytes = some .empty := by
      rw [hFresh]
      rfl
    obtain ⟨response, text, hCollect, hText, hChars⟩ := exists_collect heap hNul (k := 0) hEmpty
      (by change 0 + _ + 1 < 2 ^ 31; omega)
    refine ⟨text, ?_, hChars⟩
    change (collect heap 0 0 heap.fresh.bytes chunks).bind _ = _
    rw [show collect heap 0 0 heap.fresh.bytes chunks = some response from hCollect,
      Option.bind_some, hText]
    rfl

/-- The reply is collected as it came if and only if no piece is longer than the buffer and, where
it is returned and is a string, the memory from malloc starts with a NUL. -/
theorem collectsReply_iff (heap : Heap) (chunks : List Chunk) (last : LastResult) :
    CollectsReply heap chunks last ↔ (∀ chunk ∈ chunks, chunk.bytes.length ≤ 1023) ∧
      (last = .closed → WithoutNul chunks →
        heap.fresh.bytes.head? = some 0 ∧ (reply chunks).length + 1 < 2 ^ 31) := by
  constructor
  · rintro ⟨hInside, hWhole⟩
    refine ⟨(inside_iff heap chunks last).mp hInside, ?_⟩
    rintro rfl hNul
    exact (returned_iff heap hNul).mp (hWhole rfl hNul)
  · rintro ⟨hShort, hStart⟩
    refine ⟨(inside_iff heap chunks last).mpr hShort, ?_⟩
    rintro rfl hNul
    exact (returned_iff heap hNul).mpr (hStart rfl hNul)

/-- A piece of 1024 bytes -/
def longChunk : Chunk := ⟨List.replicate 1024 49, by decide, by rw [List.length_replicate]; decide⟩

def zeroHeap : Heap := ⟨Region.zeros 1024, fun _ _ => 0⟩

theorem longChunk_not_collected : ¬CollectsReply zeroHeap [longChunk] .closed := by
  intro h
  have hShort := (inside_iff zeroHeap [longChunk] .closed).mp h.inside longChunk
    List.mem_cons_self
  rw [longChunk, List.length_replicate] at hShort
  omega

end Manhattan.Nodes
