import Mathlib

/-! # C strings in fixed regions of memory

A `CString` is the text before a terminating NUL. A `Region` is a block of bytes of a fixed
size, in which strings are written and read as `strcpy`, `%s` and `strlen` do: a write may
run over the place meant for it, but not over the region, and a read goes on to the next
NUL of the region.
-/

namespace Manhattan.Library.CStrings

abbrev Byte := BitVec 8

@[ext] structure CString where
  chars : List Byte
  noNul : 0 ∉ chars
  deriving DecidableEq

namespace CString

def length (s : CString) : Nat := s.chars.length

def empty : CString := ⟨[], List.not_mem_nil⟩

def cons (b : Byte) (hb : b ≠ 0) (s : CString) : CString where
  chars := b :: s.chars
  noNul h := (List.mem_cons.mp h).elim (fun hEq => hb hEq.symm) s.noNul

def append (s t : CString) : CString where
  chars := s.chars ++ t.chars
  noNul h := (List.mem_append.mp h).elim s.noNul t.noNul

instance : Append CString := ⟨append⟩

def take (n : Nat) (s : CString) : CString where
  chars := s.chars.take n
  noNul h := s.noNul (List.mem_of_mem_take h)

def drop (n : Nat) (s : CString) : CString where
  chars := s.chars.drop n
  noNul h := s.noNul (List.mem_of_mem_drop h)

def takeWhile (p : Byte → Bool) (s : CString) : CString where
  chars := s.chars.takeWhile p
  noNul h := s.noNul ((List.takeWhile_prefix p).subset h)

def ascii (s : String) : CString where
  chars := (s.toList.map fun c => BitVec.ofNat 8 c.toNat).filter (· ≠ 0)
  noNul h := by simp at h

@[simp] theorem chars_append (s t : CString) : (s ++ t).chars = s.chars ++ t.chars := rfl

@[simp] theorem length_append (s t : CString) : (s ++ t).length = s.length + t.length :=
  List.length_append

@[simp] theorem chars_take (n : Nat) (s : CString) : (s.take n).chars = s.chars.take n := rfl

/-- A literal without its UTF-8 encoding, for evaluation -/
theorem ascii_ofList (l : List Char) : ascii (String.ofList l) =
    ⟨(l.map fun c => BitVec.ofNat 8 c.toNat).filter (· ≠ 0), by simp⟩ := by
  simp only [ascii, String.toList_ofList]

theorem append_inj {s t s' t' : CString} (h : s ++ t = s' ++ t') (hLength : s.length = s'.length) :
    s = s' ∧ t = t' := by
  obtain ⟨hHead, hTail⟩ := List.append_inj (congrArg chars h) hLength
  exact ⟨CString.ext hHead, CString.ext hTail⟩

theorem append_assoc (s t u : CString) : s ++ t ++ u = s ++ (t ++ u) :=
  CString.ext (List.append_assoc ..)

theorem drop_append (s t : CString) : (s ++ t).drop s.length = t :=
  CString.ext (List.drop_left ..)

theorem takeWhile_append {s : CString} {b : Byte} (hs : b ∉ s.chars) {t u : CString}
    (ht : t.chars = b :: u.chars) : (s ++ t).takeWhile (· ≠ b) = s := by
  apply CString.ext
  change (s.chars ++ t.chars).takeWhile (· ≠ b) = s.chars
  rw [ht, List.takeWhile_append_of_pos]
  · simp
  · intro c hc
    simp only [ne_eq, decide_eq_true_eq]
    rintro rfl
    exact hs hc

theorem length_take_le (n : Nat) (s : CString) : (s.take n).length ≤ n :=
  List.length_take_le n s.chars

theorem length_take_of_le {n : Nat} {s : CString} (h : n ≤ s.length) : (s.take n).length = n :=
  List.length_take_of_le h

theorem take_of_length_le {n : Nat} {s : CString} (h : s.length ≤ n) : s.take n = s :=
  CString.ext (List.take_of_length_le h)

end CString

/-! ## Reading -/

/-- The string at the start of `bytes`; there is none if no NUL follows. -/
def scan : List Byte → Option CString
  | [] => none
  | b :: rest => if h : b = 0 then some .empty else (scan rest).map (.cons b h)

theorem scan_terminated (s : CString) (rest : List Byte) :
    scan (s.chars ++ 0 :: rest) = some s := by
  obtain ⟨chars, hChars⟩ := s
  induction chars with
  | nil => rfl
  | cons b chars ih =>
    have hb : b ≠ 0 := fun hEq => hChars (hEq ▸ List.mem_cons_self)
    have hTail := ih fun h => hChars (List.mem_cons_of_mem b h)
    change scan (b :: (chars ++ 0 :: rest)) = _
    rw [scan, dif_neg hb]
    exact congrArg (Option.map (CString.cons b hb)) hTail

theorem exists_of_scan {bytes : List Byte} {s : CString} (h : scan bytes = some s) :
    ∃ rest, bytes = s.chars ++ 0 :: rest := by
  induction bytes generalizing s with
  | nil => cases h
  | cons b bytes ih =>
    rw [scan] at h
    split at h
    · rename_i hb
      cases h
      exact ⟨bytes, by rw [hb]; rfl⟩
    · obtain ⟨t, hTail, rfl⟩ := Option.map_eq_some_iff.mp h
      obtain ⟨rest, hBytes⟩ := ih hTail
      exact ⟨rest, by rw [hBytes]; rfl⟩

theorem scan_append {bytes : List Byte} {s : CString} (h : scan bytes = some s)
    (more : List Byte) : scan (bytes ++ more) = some s := by
  obtain ⟨rest, rfl⟩ := exists_of_scan h
  rw [List.append_assoc, List.cons_append]
  exact scan_terminated s _

theorem scan_of_mem {bytes : List Byte} (h : 0 ∈ bytes) :
    ∃ s, scan bytes = some s ∧ s.length < bytes.length := by
  induction bytes with
  | nil => cases h
  | cons b bytes ih =>
    rw [scan]
    split
    · exact ⟨.empty, rfl, Nat.zero_lt_succ _⟩
    · rename_i hb
      have hTail : 0 ∈ bytes := (List.mem_cons.mp h).resolve_left fun hEq => hb hEq.symm
      obtain ⟨s, hScan, hLength⟩ := ih hTail
      rw [hScan]
      exact ⟨.cons b hb s, rfl, Nat.succ_lt_succ hLength⟩

theorem exists_scan_take {bytes : List Byte} {n : Nat} (h : 0 ∈ bytes.take n) :
    ∃ s, scan (bytes.take n) = some s ∧ scan bytes = some s ∧ s.length < n := by
  obtain ⟨s, hScan, hLength⟩ := scan_of_mem h
  have hWhole := scan_append hScan (bytes.drop n)
  rw [List.take_append_drop] at hWhole
  rw [List.length_take] at hLength
  exact ⟨s, hScan, hWhole, by omega⟩

theorem scan_eq_of_take_eq {bytes other : List Byte} {n : Nat} (h : 0 ∈ bytes.take n)
    (hTake : other.take n = bytes.take n) : scan other = scan bytes := by
  obtain ⟨s, hShort, hBytes, _⟩ := exists_scan_take h
  rw [← hTake] at h
  obtain ⟨t, hShort', hOther, _⟩ := exists_scan_take h
  rw [hTake, hShort] at hShort'
  rw [hOther, hBytes, hShort']

theorem scan_take_append {bytes : List Byte} {s : CString} (h : scan bytes = some s) {n : Nat}
    (hn : s.length ≤ n) (more : List Byte) : scan (bytes.take n ++ 0 :: more) = some s := by
  obtain ⟨rest, rfl⟩ := exists_of_scan h
  obtain ⟨k, rfl⟩ := Nat.exists_eq_add_of_le hn
  have hTake : (s.chars ++ 0 :: rest).take (s.length + k) = s.chars ++ (0 :: rest).take k :=
    List.take_length_add_append k
  rw [hTake, List.append_assoc]
  cases k with
  | zero => exact scan_terminated s more
  | succ k => exact scan_terminated s _

/-- Whether `strcmp` returns 0: it reads up to the first difference or the common NUL. -/
def strcmpZero : List Byte → List Byte → Option Bool
  | a :: as, b :: bs =>
    if a ≠ b then some false
    else if a = 0 then some true
    else strcmpZero as bs
  | _, _ => none

theorem strcmpZero_of_scan {bytes other : List Byte} {s t : CString} (hs : scan bytes = some s)
    (ht : scan other = some t) : strcmpZero bytes other = some (decide (s.chars = t.chars)) := by
  induction bytes generalizing other s t with
  | nil => cases hs
  | cons a bytes ih =>
    cases other with
    | nil => cases ht
    | cons b other =>
      rw [strcmpZero]
      rw [scan] at hs ht
      split
      · rename_i hNe
        split at hs <;> split at ht
        · simp_all
        · obtain ⟨t', _, rfl⟩ := Option.map_eq_some_iff.mp ht
          cases hs
          rfl
        · obtain ⟨s', _, rfl⟩ := Option.map_eq_some_iff.mp hs
          cases ht
          rfl
        · obtain ⟨s', _, rfl⟩ := Option.map_eq_some_iff.mp hs
          obtain ⟨t', _, rfl⟩ := Option.map_eq_some_iff.mp ht
          simp [CString.cons, hNe]
      · rename_i hEq
        have hSame : a = b := not_not.mp hEq
        subst hSame
        split
        · rename_i hZero
          rw [dif_pos hZero] at hs ht
          cases hs
          cases ht
          rfl
        · rename_i hZero
          rw [dif_neg hZero] at hs ht
          obtain ⟨s', hs', rfl⟩ := Option.map_eq_some_iff.mp hs
          obtain ⟨t', ht', rfl⟩ := Option.map_eq_some_iff.mp ht
          rw [ih hs' ht']
          simp [CString.cons]

theorem exists_of_strcmpZero {bytes other : List Byte} (h : strcmpZero bytes other = some true) :
    ∃ s, scan bytes = some s ∧ scan other = some s := by
  induction bytes generalizing other with
  | nil => cases h
  | cons a bytes ih =>
    cases other with
    | nil => cases h
    | cons b other =>
      rw [strcmpZero] at h
      split at h
      · cases h
      · rename_i hEq
        have hSame : a = b := not_not.mp hEq
        subst hSame
        rw [scan, scan]
        split at h
        · rename_i hZero
          rw [dif_pos hZero, dif_pos hZero]
          exact ⟨.empty, rfl, rfl⟩
        · rename_i hZero
          obtain ⟨s, hBytes, hOther⟩ := ih h
          rw [dif_neg hZero, dif_neg hZero, hBytes, hOther]
          exact ⟨.cons a hZero s, rfl, rfl⟩

theorem takeWhile_of_scan {bytes : List Byte} {s : CString} (h : scan bytes = some s) :
    bytes.takeWhile (· ≠ 0) = s.chars := by
  obtain ⟨rest, rfl⟩ := exists_of_scan h
  have hChars : ∀ c ∈ s.chars, decide (c ≠ 0) = true := by
    intro c hc
    rw [decide_eq_true_eq]
    rintro rfl
    exact s.noNul hc
  rw [List.takeWhile_append_of_pos hChars]
  simp

theorem scan_chars_append (s : CString) {t : CString} {bytes : List Byte}
    (h : scan bytes = some t) : scan (s.chars ++ bytes) = some (s ++ t) := by
  obtain ⟨rest, rfl⟩ := exists_of_scan h
  rw [← List.append_assoc]
  exact scan_terminated (s ++ t) rest

theorem mem_take_of_scan {bytes : List Byte} {s : CString} (h : scan bytes = some s) {n : Nat}
    (hn : s.length < n) : 0 ∈ bytes.take n := by
  obtain ⟨rest, rfl⟩ := exists_of_scan h
  obtain ⟨k, rfl⟩ := Nat.exists_eq_add_of_lt hn
  have hTake : (s.chars ++ 0 :: rest).take (s.length + (k + 1)) =
      s.chars ++ (0 :: rest).take (k + 1) := List.take_length_add_append (k + 1)
  rw [Nat.add_assoc, hTake]
  exact List.mem_append_right _ List.mem_cons_self

theorem take_of_scan {bytes : List Byte} {s : CString} (h : scan bytes = some s) {n : Nat}
    (hn : n ≤ s.length) : bytes.take n = (s.take n).chars := by
  obtain ⟨rest, rfl⟩ := exists_of_scan h
  exact List.take_append_of_le_length hn

/-! ## Writing -/

structure Region (size : Nat) where
  bytes : List Byte
  length_bytes : bytes.length = size
  deriving DecidableEq

namespace Region

def zeros (size : Nat) : Region size where
  bytes := List.replicate size 0
  length_bytes := List.length_replicate

variable {size : Nat}

theorem eq_of_getD {r r' : Region size}
    (h : ∀ k < size, r.bytes.getD k 0 = r'.bytes.getD k 0) : r = r' := by
  obtain ⟨bytes, hLength⟩ := r
  obtain ⟨bytes', hLength'⟩ := r'
  congr
  refine List.ext_getElem (hLength.trans hLength'.symm) fun k hk hk' => ?_
  have hSame := h k (hLength ▸ hk)
  rwa [List.getD_eq_getElem _ _ hk, List.getD_eq_getElem _ _ hk'] at hSame

def write (r : Region size) (offset : Nat) (data : List Byte) (h : offset + data.length ≤ size) :
    Region size where
  bytes := r.bytes.take offset ++ (data ++ r.bytes.drop (offset + data.length))
  length_bytes := by
    have hLength := r.length_bytes
    simp only [List.length_append, List.length_take, List.length_drop]
    omega

variable {r : Region size} {offset : Nat} {data : List Byte} {h : offset + data.length ≤ size}

theorem take_write {n : Nat} (hn : n ≤ offset) :
    (r.write offset data h).bytes.take n = r.bytes.take n := by
  have hLength := r.length_bytes
  rw [write, List.take_append_of_le_length (by rw [List.length_take]; omega), List.take_take,
    Nat.min_eq_left hn]

theorem drop_write_self :
    (r.write offset data h).bytes.drop offset = data ++ r.bytes.drop (offset + data.length) := by
  have hLength := r.length_bytes
  have hTake : (r.bytes.take offset).length = offset := by
    rw [List.length_take]
    omega
  rw [write, List.drop_append_of_le_length (by omega), List.drop_eq_nil_of_le (by omega)]
  rfl

theorem drop_write {n : Nat} (hn : offset + data.length ≤ n) :
    (r.write offset data h).bytes.drop n = r.bytes.drop n := by
  obtain ⟨k, rfl⟩ := Nat.exists_eq_add_of_le hn
  rw [Nat.add_assoc, ← List.drop_drop, drop_write_self, ← List.drop_drop, List.drop_left,
    List.drop_drop, ← Nat.add_assoc]

/-- `r[i] = b` -/
def store (r : Region size) (i : Nat) (b : Byte) : Option (Region size) :=
  if h : i + [b].length ≤ size then some (r.write i [b] h) else none

theorem exists_store (r : Region size) {bytes : List Byte} (hLength : bytes.length ≤ size) {i : Nat}
    (hi : i < bytes.length) (hTake : r.bytes.take i = bytes.take i) :
    ∃ r', r.store i bytes[i] = some r' ∧ r'.bytes.take (i + 1) = bytes.take (i + 1) := by
  have hFits : i + [bytes[i]].length ≤ size := hi.trans_le hLength
  refine ⟨_, dif_pos hFits, ?_⟩
  rw [List.take_add, take_write (Nat.le_refl i), drop_write_self, hTake,
    List.take_succ_eq_append_getElem hi]
  rfl

/-- `%s` with the address of the byte at `offset` -/
def string (r : Region size) (offset : Nat) : Option CString := scan (r.bytes.drop offset)

theorem exists_string (r : Region size) (h : 0 ∈ r.bytes) :
    ∃ s, r.string 0 = some s ∧ s.length < size := by
  obtain ⟨s, hScan, hLength⟩ := scan_of_mem h
  exact ⟨s, hScan, r.length_bytes ▸ hLength⟩

theorem mem_zero_of_string {offset : Nat} {s : CString} (h : r.string offset = some s) :
    0 ∈ r.bytes := by
  obtain ⟨rest, hRest⟩ := exists_of_scan h
  apply List.mem_of_mem_drop
  rw [hRest]
  exact List.mem_append_right _ List.mem_cons_self

def strcpy (r : Region size) (offset : Nat) (s : CString) : Option (Region size) :=
  if h : offset + (s.chars ++ [0]).length ≤ size then some (r.write offset (s.chars ++ [0]) h)
  else none

theorem exists_strcpy (r : Region size) (offset : Nat) (s : CString)
    (h : offset + s.length < size) : ∃ r', r.strcpy offset s = some r' := by
  refine ⟨_, dif_pos ?_⟩
  rw [List.length_append]
  exact h

variable {r' : Region size} {s : CString}

theorem strcpy_eq (hCopy : r.strcpy offset s = some r') :
    ∃ h : offset + (s.chars ++ [0]).length ≤ size, r' = r.write offset (s.chars ++ [0]) h := by
  rw [strcpy] at hCopy
  split at hCopy
  · rename_i h
    exact ⟨h, (Option.some.inj hCopy).symm⟩
  · cases hCopy

theorem strcpy_fits (hCopy : r.strcpy offset s = some r') : offset + s.length < size := by
  obtain ⟨h, _⟩ := strcpy_eq hCopy
  rw [List.length_append] at h
  exact h

theorem take_strcpy (hCopy : r.strcpy offset s = some r') {n : Nat} (hn : n ≤ offset) :
    r'.bytes.take n = r.bytes.take n := by
  obtain ⟨_, rfl⟩ := strcpy_eq hCopy
  exact take_write hn

theorem drop_strcpy (hCopy : r.strcpy offset s = some r') {n : Nat}
    (hn : offset + s.length < n) : r'.bytes.drop n = r.bytes.drop n := by
  obtain ⟨_, rfl⟩ := strcpy_eq hCopy
  apply drop_write
  rw [List.length_append]
  exact hn

theorem take_strcpy_add (hCopy : r.strcpy offset s = some r') :
    r'.bytes.take (offset + s.length) = r.bytes.take offset ++ s.chars := by
  obtain ⟨_, rfl⟩ := strcpy_eq hCopy
  rw [List.take_add, take_write (Nat.le_refl _), drop_write_self, List.append_assoc]
  exact congrArg (r.bytes.take offset ++ ·) List.take_left

theorem string_strcpy (hCopy : r.strcpy offset s = some r') : r'.string offset = some s := by
  obtain ⟨_, rfl⟩ := strcpy_eq hCopy
  rw [string, drop_write_self, List.append_assoc]
  exact scan_terminated s _

theorem string_of_take_eq {t : CString} {k n : Nat} (hString : r.string k = some t)
    (hk : k + t.length < n) (hTake : r'.bytes.take n = r.bytes.take n) : r'.string k = some t := by
  have hMem : 0 ∈ (r.bytes.drop k).take (n - k) := mem_take_of_scan hString (by omega)
  have hSame : (r'.bytes.drop k).take (n - k) = (r.bytes.drop k).take (n - k) := by
    rw [List.take_drop, List.take_drop, Nat.add_sub_cancel' (by omega), hTake]
  exact (scan_eq_of_take_eq hMem hSame).trans hString

theorem string_strcpy_before {t : CString} {k : Nat} (hString : r.string k = some t)
    (hk : k + t.length < offset) (hCopy : r.strcpy offset s = some r') :
    r'.string k = some t :=
  string_of_take_eq hString hk (take_strcpy hCopy (Nat.le_refl _))

theorem string_strcpy_behind {k : Nat} (hk : offset + s.length < k)
    (hCopy : r.strcpy offset s = some r') : r'.string k = r.string k :=
  congrArg scan (drop_strcpy hCopy hk)

theorem string_strcpy_add {t : CString} {k : Nat} (hString : r.string offset = some t)
    (hk : k ≤ t.length) (hCopy : r.strcpy (offset + k) s = some r') :
    r'.string offset = some (t.take k ++ s) := by
  obtain ⟨rest, hRest⟩ := exists_of_scan hString
  have hTake := take_strcpy hCopy (Nat.le_refl _)
  have hTail : scan (r'.bytes.drop (offset + k)) = some s := string_strcpy hCopy
  obtain ⟨rest', hRest'⟩ := exists_of_scan hTail
  have hHead : (r'.bytes.drop offset).take k = t.chars.take k := by
    rw [List.take_drop, hTake, ← List.take_drop, hRest, List.take_append_of_le_length hk]
  have hBytes : r'.bytes.drop offset = (t.take k ++ s).chars ++ 0 :: rest' := by
    rw [← List.take_append_drop k (r'.bytes.drop offset), hHead, List.drop_drop, hRest']
    simp
  rw [string, hBytes]
  exact scan_terminated _ _

end Region

/-! ## Numbers -/

theorem digits_noNul (digits : List Nat) (base : Nat) (f : Nat → Byte)
    (hDigits : ∀ d ∈ digits, d < base) (hf : ∀ d < base, f d ≠ 0) :
    0 ∉ digits.reverse.map f := by
  intro h
  obtain ⟨d, hd, hZero⟩ := List.mem_map.mp h
  exact hf d (hDigits d (List.mem_reverse.mp hd)) hZero

def isDigit (b : Byte) : Bool := 48 ≤ b && b ≤ 57

def decimalDigit (d : Nat) : Byte := BitVec.ofNat 8 (48 + d)

def hexDigit (d : Nat) : Byte := BitVec.ofNat 8 (if d < 10 then 48 + d else 87 + d)

def decimalNat (n : Nat) : CString where
  chars := if n = 0 then [48] else (Nat.digits 10 n).reverse.map decimalDigit
  noNul := by
    split
    · decide
    · exact digits_noNul _ 10 _ (fun d hd => Nat.digits_lt_base (by decide) hd) (by decide)

def minus : CString := ⟨[45], by decide⟩

/-- `%d` and `%ld` -/
def decimal (i : Int) : CString :=
  if i < 0 then minus ++ decimalNat i.natAbs else decimalNat i.natAbs

/-- `%02x` of an unsigned number -/
def hex02 (n : Nat) : CString where
  chars := List.replicate (2 - (Nat.digits 16 n).length) 48 ++
    (Nat.digits 16 n).reverse.map hexDigit
  noNul h := by
    rcases List.mem_append.mp h with hPad | hDigits
    · exact absurd (List.eq_of_mem_replicate hPad) (by decide)
    · exact digits_noNul _ 16 _ (fun d hd => Nat.digits_lt_base (by decide) hd) (by decide) hDigits

theorem length_hex02_le {n k : Nat} (hk : 2 ≤ k) (hn : n < 16 ^ k) : (hex02 n).length ≤ k := by
  have hDigits := (Nat.digits_length_le_iff (by decide) n).mpr hn
  simp only [hex02, CString.length, List.length_append, List.length_replicate, List.length_map,
    List.length_reverse]
  omega

theorem two_le_length_hex02 (n : Nat) : 2 ≤ (hex02 n).length := by
  simp only [hex02, CString.length, List.length_append, List.length_replicate, List.length_map,
    List.length_reverse]
  omega

theorem length_decimalNat_le {n k : Nat} (hk : 0 < k) (hn : n < 10 ^ k) :
    (decimalNat n).length ≤ k := by
  unfold decimalNat CString.length
  split
  · exact hk
  · simpa using (Nat.digits_length_le_iff (by decide) n).mpr hn

theorem length_decimal_le {i : Int} {k : Nat} (hk : 0 < k) (hi : i.natAbs < 10 ^ k) :
    (decimal i).length ≤ k + 1 := by
  have hLength := length_decimalNat_le hk hi
  unfold decimal
  split
  · rw [CString.length_append]
    exact Nat.add_comm k 1 ▸ Nat.add_le_add_left hLength 1
  · omega

theorem natAbs_toInt_lt {w : Nat} (v : BitVec w) {bound : Nat} (h : 2 ^ w ≤ bound) :
    v.toInt.natAbs < bound := by
  have hLower := BitVec.le_two_mul_toInt (x := v)
  have hUpper := BitVec.two_mul_toInt_lt (x := v)
  have hPos : 0 < 2 ^ w := Nat.two_pow_pos w
  have hCast : ((2 ^ w : Nat) : Int) ≤ bound := by exact_mod_cast h
  push_cast at hCast
  omega

theorem length_decimal32_le (v : BitVec 32) : (decimal v.toInt).length ≤ 11 :=
  length_decimal_le (by decide) (natAbs_toInt_lt v (by decide))

theorem length_decimal64_le (v : BitVec 64) : (decimal v.toInt).length ≤ 21 :=
  length_decimal_le (by decide) (natAbs_toInt_lt v (by decide))

/-! ## Reading numbers back -/

def numberOf (digits : List Byte) : Nat := Nat.ofDigits 10 (digits.reverse.map fun b => b.toNat - 48)

/-- What `%d` and `%ld` read. -/
def readDecimal : List Byte → Int
  | 45 :: digits => -(numberOf digits : Int)
  | digits => numberOf digits

theorem toNat_decimalDigit {d : Nat} (h : d < 10) : (decimalDigit d).toNat = 48 + d := by
  rw [decimalDigit, BitVec.toNat_ofNat]
  omega

theorem numberOf_decimalNat (n : Nat) : numberOf (decimalNat n).chars = n := by
  unfold numberOf decimalNat
  split
  · rename_i hZero
    exact hZero.symm
  · have hDigits : (Nat.digits 10 n).map (fun d => (decimalDigit d).toNat - 48) =
        Nat.digits 10 n := by
      refine (List.map_congr_left fun d hd => ?_).trans (List.map_id _)
      rw [toNat_decimalDigit (Nat.digits_lt_base (by decide) hd), Nat.add_sub_cancel_left]
      rfl
    simp only [List.map_reverse, List.reverse_reverse, List.map_map]
    calc
      _ = Nat.ofDigits 10 (Nat.digits 10 n) := congrArg (Nat.ofDigits 10) hDigits
      _ = n := Nat.ofDigits_digits 10 n

theorem le_toNat_of_mem_decimalNat {n : Nat} {b : Byte} (h : b ∈ (decimalNat n).chars) :
    48 ≤ b.toNat := by
  unfold decimalNat at h
  simp only at h
  split at h
  · rw [List.mem_singleton.mp h]
    decide
  · obtain ⟨d, hd, rfl⟩ := List.mem_map.mp h
    rw [toNat_decimalDigit (Nat.digits_lt_base (by decide) (List.mem_reverse.mp hd))]
    exact Nat.le_add_right 48 d

theorem readDecimal_decimal (i : Int) : readDecimal (decimal i).chars = i := by
  unfold decimal
  split
  · change -(numberOf (decimalNat i.natAbs).chars : Int) = i
    rw [numberOf_decimalNat]
    omega
  · have hHead : ∀ digits, (decimalNat i.natAbs).chars ≠ 45 :: digits := by
      intro digits h
      have hMem : (45 : Byte) ∈ (decimalNat i.natAbs).chars := h ▸ List.mem_cons_self
      exact absurd (le_toNat_of_mem_decimalNat hMem) (by decide)
    rw [readDecimal, numberOf_decimalNat]
    · omega
    · exact hHead

theorem not_mem_decimal {i : Int} {b : Byte} (hMinus : b ≠ 45) (hBelow : b.toNat < 48) :
    b ∉ (decimal i).chars := by
  have hDigits : b ∉ (decimalNat i.natAbs).chars := fun h =>
    absurd (le_toNat_of_mem_decimalNat h) (Nat.not_le.mpr hBelow)
  unfold decimal
  split
  · rintro (_ | ⟨_, h⟩)
    · exact hMinus rfl
    · exact hDigits h
  · exact hDigits

theorem decimal_injective : Function.Injective decimal := by
  intro i j h
  rw [← readDecimal_decimal i, h, readDecimal_decimal]

/-- `sprintf` of a formatted text into a buffer of `capacity` bytes -/
def sprintf (capacity : Nat) (text : CString) : Option CString :=
  if text.length < capacity then some text else none

theorem sprintf_eq_some {capacity : Nat} {text s : CString} (h : sprintf capacity text = some s) :
    s = text := by
  unfold sprintf at h
  split at h
  · exact (Option.some.inj h).symm
  · cases h

theorem sprintf_of_lt {capacity : Nat} {text : CString} (h : text.length < capacity) :
    sprintf capacity text = some text := if_pos h

end Manhattan.Library.CStrings
