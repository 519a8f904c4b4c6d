import Mathlib

/-! # The leftmost longest match

Of the places in a text where a word of a language stands, a search finds the first, and of the
words there the longest. If no word of one language is the front of another, the longest word of a
product is found one factor after the other.
-/

namespace Manhattan.Library.Matching

variable {α : Type*} {L M : Language α} {f g : List α → Option Nat} {text : List α}

/-! ## The longest word in front -/

structure Longest (L : Language α) (text : List α) (n : Nat) : Prop where
  le : n ≤ text.length
  mem : text.take n ∈ L
  longest : ∀ k ≤ text.length, text.take k ∈ L → k ≤ n

def Computes (f : List α → Option Nat) (L : Language α) : Prop :=
  ∀ text n, f text = some n ↔ Longest L text n

theorem Longest.unique {n n' : Nat} (h : Longest L text n) (h' : Longest L text n') : n = n' :=
  Nat.le_antisymm (h'.longest n h.le h.mem) (h.longest n' h'.le h'.mem)

theorem exists_longest {k : Nat} (hk : k ≤ text.length) (hMem : text.take k ∈ L) :
    ∃ n, Longest L text n := by
  classical
  let p := fun n => text.take n ∈ L
  have hSpec : p (Nat.findGreatest p text.length) := Nat.findGreatest_spec hk hMem
  exact ⟨Nat.findGreatest p text.length, Nat.findGreatest_le _, hSpec,
    fun _ hk' hMem' => Nat.le_findGreatest hk' hMem'⟩

theorem exists_longest_of_prefix {u : List α} (hMem : u ∈ L) (hText : u <+: text) :
    ∃ n, Longest L text n :=
  exists_longest hText.length_le (List.prefix_iff_eq_take.mp hText ▸ hMem)

theorem Computes.eq_none_iff (h : Computes f L) :
    f text = none ↔ ∀ k ≤ text.length, text.take k ∉ L := by
  constructor
  · intro hNone k hk hMem
    obtain ⟨n, hn⟩ := exists_longest hk hMem
    rw [(h text n).mpr hn] at hNone
    cases hNone
  · intro hNever
    by_contra hSome
    obtain ⟨n, hn⟩ := Option.ne_none_iff_exists'.mp hSome
    have hLongest := (h text n).mp hn
    exact hNever n hLongest.le hLongest.mem

/-! ## Words of one class -/

/-- `[p]{lo,hi}` -/
def repeats (p : α → Bool) (lo hi : Nat) : Language α :=
  {u | lo ≤ u.length ∧ u.length ≤ hi ∧ ∀ a ∈ u, p a = true}

theorem mem_repeats {p : α → Bool} {lo hi : Nat} {u : List α} :
    u ∈ repeats p lo hi ↔ lo ≤ u.length ∧ u.length ≤ hi ∧ ∀ a ∈ u, p a = true := Iff.rfl

def repeatsLength (p : α → Bool) (hi : Nat) (text : List α) : Nat :=
  ((text.take hi).takeWhile p).length

theorem longest_repeatsLength {p : α → Bool} {lo hi : Nat}
    (h : lo ≤ repeatsLength p hi text) : Longest (repeats p lo hi) text (repeatsLength p hi text) := by
  have hPrefix := List.takeWhile_prefix p (l := text.take hi)
  have hWhole : text.take (repeatsLength p hi text) = (text.take hi).takeWhile p :=
    (List.prefix_iff_eq_take.mp (hPrefix.trans (List.take_prefix hi text))).symm
  have hShort := hPrefix.length_le
  rw [List.length_take] at hShort
  refine ⟨hShort.trans (Nat.min_le_right _ _), ?_, ?_⟩
  · rw [mem_repeats, hWhole]
    exact ⟨h, hShort.trans (Nat.min_le_left _ _), fun a ha => List.mem_takeWhile_imp ha⟩
  · intro k hk hMem
    obtain ⟨-, hHigh, hAll⟩ := mem_repeats.mp hMem
    rw [List.length_take, Nat.min_eq_left hk] at hHigh
    have hTake : (text.take hi).take k = text.take k := by
      rw [List.take_take, Nat.min_eq_left hHigh]
    have hFront : (text.take hi).takeWhile p =
        text.take k ++ ((text.take hi).drop k).takeWhile p := by
      conv => lhs; rw [← List.take_append_drop k (text.take hi), hTake]
      exact List.takeWhile_append_of_pos hAll
    have hLength := congrArg List.length hFront
    rw [List.length_append, List.length_take, Nat.min_eq_left hk] at hLength
    exact (Nat.le_add_right _ _).trans hLength.ge

theorem computes_repeats (p : α → Bool) (lo hi : Nat) : Computes (fun text =>
    if repeatsLength p hi text < lo then none else some (repeatsLength p hi text))
      (repeats p lo hi) := by
  intro text n
  dsimp only
  split
  · rename_i hFew
    refine iff_of_false (Option.some_ne_none n).symm fun hLongest => ?_
    obtain ⟨hLow, hHigh, hAll⟩ := mem_repeats.mp hLongest.mem
    have hMore := (longest_repeatsLength (Nat.zero_le _)).longest n hLongest.le
      (mem_repeats.mpr ⟨Nat.zero_le _, hHigh, hAll⟩)
    rw [List.length_take, Nat.min_eq_left hLongest.le] at hLow
    omega
  · rename_i hMany
    have hLongest := longest_repeatsLength (Nat.le_of_not_lt hMany)
    constructor
    · intro h
      exact Option.some.inj h ▸ hLongest
    · intro h
      exact congrArg some (hLongest.unique h)

/-! ## One factor after the other -/

def PrefixFree (L : Language α) : Prop := ∀ u ∈ L, ∀ v ∈ L, u <+: v → u = v

theorem PrefixFree.eq_of_prefix (h : PrefixFree L) {u v : List α} (hu : u ∈ L) (hv : v ∈ L)
    (hText : u <+: text) (hText' : v <+: text) : u = v := by
  obtain hFront | hFront := List.prefix_or_prefix_of_prefix hText hText'
  · exact h u hu v hv hFront
  · exact (h v hv u hu hFront).symm

/-- A letter that the words lack ends them. -/
theorem prefixFree_mul_singleton {a : α} (h : ∀ u ∈ L, a ∉ u) : PrefixFree (L * {[a]}) := by
  rintro _ ⟨u, hu, _, rfl, rfl⟩ _ ⟨v, hv, _, rfl, rfl⟩ ⟨rest, hRest⟩
  rw [List.append_assoc] at hRest
  obtain ⟨more, hv', hTail⟩ | ⟨more, hu', hTail⟩ := List.append_eq_append_iff.mp hRest
  · cases more with
    | nil => rw [hv', List.append_nil]
    | cons b more =>
      have hHead : a = b := (List.cons.inj hTail).1
      refine absurd ?_ (h v hv)
      rw [hv', hHead]
      exact List.mem_append_right u List.mem_cons_self
  · cases more with
    | nil => rw [hu', List.append_nil]
    | cons b more =>
      have hHead : a = b := (List.cons.inj hTail).1
      refine absurd ?_ (h u hu)
      rw [hu', hHead]
      exact List.mem_append_right v List.mem_cons_self

/-- A text is put together from words of which none begins another in one way only. -/
theorem PrefixFree.flatMap_injective {β : Type*} {f : β → List α}
    (h : PrefixFree (Set.range f : Set (List α))) (hInjective : Function.Injective f)
    (hWord : ∀ b, f b ≠ []) : Function.Injective (List.flatMap f) := by
  intro xs ys hText
  induction xs generalizing ys with
  | nil =>
    cases ys with
    | nil => rfl
    | cons y ys => exact absurd (List.append_eq_nil_iff.mp hText.symm).1 (hWord y)
  | cons x xs ih =>
    cases ys with
    | nil => exact absurd (List.append_eq_nil_iff.mp hText).1 (hWord x)
    | cons y ys =>
      rw [List.flatMap_cons, List.flatMap_cons] at hText
      have hFirst : f x = f y := h.eq_of_prefix ⟨x, rfl⟩ ⟨y, rfl⟩
        (List.prefix_append (f x) (xs.flatMap f)) (hText ▸ List.prefix_append (f y) (ys.flatMap f))
      obtain rfl := hInjective hFirst
      rw [ih (List.append_cancel_left hText)]

theorem Longest.mul (hFree : PrefixFree L) {n m : Nat} (hn : Longest L text n)
    (hm : Longest M (text.drop n) m) : Longest (L * M) text (n + m) := by
  have hRoom := hm.le
  rw [List.length_drop] at hRoom
  refine ⟨by have hLe := hn.le; omega, ?_, ?_⟩
  · rw [List.take_add]
    exact Language.append_mem_mul hn.mem hm.mem
  · intro k hk hMem
    obtain ⟨u, hu, v, hv, hWord⟩ := Language.mem_mul.mp hMem
    have hText : u <+: text := (List.prefix_append u v).trans (hWord ▸ List.take_prefix k text)
    have hFirst := hFree.eq_of_prefix hu hn.mem hText (List.take_prefix n text)
    have hSize := congrArg List.length hFirst
    rw [List.length_take, Nat.min_eq_left hn.le] at hSize
    have hSum := congrArg List.length hWord
    rw [List.length_append, List.length_take, Nat.min_eq_left hk] at hSum
    have hSecond : v = (text.drop n).take v.length := by
      have hAll : text = u ++ (v ++ text.drop k) := by
        rw [← List.append_assoc, hWord, List.take_append_drop]
      have hDrop : text.drop n = v ++ text.drop k := by
        conv => lhs; rw [hAll, ← hSize]
        exact List.drop_left ..
      rw [hDrop, List.take_left]
    have hLast := hm.longest v.length (by rw [List.length_drop]; omega) (hSecond ▸ hv)
    omega

theorem Computes.mul (hf : Computes f L) (hg : Computes g M) (hFree : PrefixFree L) :
    Computes (fun text => do
      let n ← f text
      let m ← g (text.drop n)
      return n + m) (L * M) := by
  intro text p
  constructor
  · intro h
    obtain ⟨n, hn, h⟩ := Option.bind_eq_some_iff.mp h
    obtain ⟨m, hm, h⟩ := Option.bind_eq_some_iff.mp h
    obtain rfl := Option.some.inj h
    exact ((hf text n).mp hn).mul hFree ((hg _ m).mp hm)
  · intro h
    obtain ⟨u, hu, v, hv, hWord⟩ := Language.mem_mul.mp h.mem
    have hText : u ++ v <+: text := hWord ▸ List.take_prefix p text
    obtain ⟨rest, rfl⟩ := hText
    rw [List.append_assoc] at h ⊢
    obtain ⟨n, hn⟩ := exists_longest_of_prefix hu (List.prefix_append u (v ++ rest))
    have hFirst := hFree.eq_of_prefix hn.mem hu (List.take_prefix n _) (List.prefix_append u _)
    have hDrop : (u ++ (v ++ rest)).drop n = v ++ rest := by
      have hParts := List.take_append_drop n (u ++ (v ++ rest))
      rw [hFirst] at hParts
      exact List.append_cancel_left hParts
    obtain ⟨m, hm⟩ := exists_longest_of_prefix hv (List.prefix_append v rest)
    have hSum := h.unique (hn.mul hFree (hDrop ▸ hm))
    simp only [(hf _ n).mpr hn, hDrop, (hg _ m).mpr hm, Option.bind_eq_bind, Option.bind_some]
    exact congrArg some hSum.symm

theorem Longest.length_eq {a : α} (h : ∀ u ∈ L, a ∉ u) {u : List α} {n : Nat} (hu : u ∈ L)
    (hText : u ++ [a] <+: text) (hn : Longest L text n) : n = u.length := by
  obtain ⟨rest, rfl⟩ := hText
  refine Nat.le_antisymm ?_ ?_
  · by_contra hMore
    refine h _ hn.mem (List.mem_of_getElem? (i := u.length) ?_)
    rw [List.getElem?_take_of_lt (Nat.lt_of_not_le hMore), List.append_assoc,
      List.getElem?_append_right (Nat.le_refl _), Nat.sub_self]
    rfl
  · refine hn.longest u.length ?_ ?_
    · rw [List.append_assoc, List.length_append]
      exact Nat.le_add_right _ _
    · rw [List.append_assoc, List.take_left]
      exact hu

/-- A letter that the words lack follows the longest of them. -/
theorem Computes.mul_letter [DecidableEq α] (hf : Computes f L) {a : α} (h : ∀ u ∈ L, a ∉ u) :
    Computes (fun text => do
      let n ← f text
      if text[n]? = some a then some (n + 1) else none) (L * {[a]}) := by
  intro text p
  constructor
  · intro hSome
    obtain ⟨n, hn, hSome⟩ := Option.bind_eq_some_iff.mp hSome
    obtain ⟨hLetter, hp⟩ := Option.ite_none_right_eq_some.mp hSome
    obtain rfl := Option.some.inj hp
    have hLongest := (hf text n).mp hn
    refine ⟨(List.getElem?_eq_some_iff.mp hLetter).1, ?_, ?_⟩
    · rw [List.take_add_one, hLetter]
      exact Language.append_mem_mul hLongest.mem rfl
    · intro k hk hMem
      obtain ⟨u, hu, _, rfl, hWord⟩ := Language.mem_mul.mp hMem
      have hSize := congrArg List.length hWord
      rw [List.length_append, List.length_singleton, List.length_take, Nat.min_eq_left hk] at hSize
      rw [hLongest.length_eq h hu (hWord ▸ List.take_prefix k text), hSize]
  · intro hLongest
    obtain ⟨u, hu, _, rfl, hWord⟩ := Language.mem_mul.mp hLongest.mem
    have hText : u ++ [a] <+: text := hWord ▸ List.take_prefix p text
    obtain ⟨n, hn⟩ := exists_longest_of_prefix hu ((List.prefix_append u [a]).trans hText)
    obtain rfl := hn.length_eq h hu hText
    have hSize := congrArg List.length hWord
    rw [List.length_append, List.length_singleton, List.length_take,
      Nat.min_eq_left hLongest.le] at hSize
    obtain ⟨rest, rfl⟩ := hText
    have hLetter : (u ++ [a] ++ rest)[u.length]? = some a := by simp
    simp only [(hf _ _).mpr hn, Option.bind_eq_bind, Option.bind_some, hLetter, if_true, hSize]

/-! ## The first place -/

structure LeftmostLongest (L : Language α) (text : List α) (so eo : Nat) : Prop where
  start : so ≤ text.length
  le : so ≤ eo
  longest : Longest L (text.drop so) (eo - so)
  leftmost : ∀ i < so, ∀ k ≤ (text.drop i).length, (text.drop i).take k ∉ L

/-- Start and end of the match -/
def search (f : List α → Option Nat) : List α → Option (Nat × Nat)
  | [] => (f []).map fun n => (0, n)
  | a :: rest =>
    match f (a :: rest) with
    | some n => some (0, n)
    | none => (search f rest).map fun (so, eo) => (so + 1, eo + 1)

theorem leftmostLongest_zero {n : Nat} : LeftmostLongest L text 0 n ↔ Longest L text n := by
  constructor
  · intro h
    exact h.longest
  · intro h
    exact ⟨Nat.zero_le _, Nat.zero_le _, h, fun i hi => absurd hi (Nat.not_lt_zero i)⟩

theorem LeftmostLongest.cons {a : α} {so eo : Nat} (h : LeftmostLongest L text so eo)
    (hHere : ∀ k ≤ (a :: text).length, (a :: text).take k ∉ L) :
    LeftmostLongest L (a :: text) (so + 1) (eo + 1) := by
  refine ⟨Nat.succ_le_succ h.start, Nat.succ_le_succ h.le, ?_, ?_⟩
  · rw [List.drop_succ_cons, Nat.add_sub_add_right]
    exact h.longest
  · intro i hi
    cases i with
    | zero => exact hHere
    | succ i => exact h.leftmost i (Nat.lt_of_succ_lt_succ hi)

theorem LeftmostLongest.of_cons {a : α} {so eo : Nat}
    (h : LeftmostLongest L (a :: text) (so + 1) (eo + 1)) : LeftmostLongest L text so eo := by
  refine ⟨Nat.le_of_succ_le_succ h.start, Nat.le_of_succ_le_succ h.le, ?_, ?_⟩
  · have hLongest := h.longest
    rwa [List.drop_succ_cons, Nat.add_sub_add_right] at hLongest
  · intro i hi
    exact h.leftmost (i + 1) (Nat.succ_lt_succ hi)

theorem Computes.search (h : Computes f L) (text : List α) (so eo : Nat) :
    search f text = some (so, eo) ↔ LeftmostLongest L text so eo := by
  induction text generalizing so eo with
  | nil =>
    rw [Matching.search]
    constructor
    · intro hSome
      obtain ⟨n, hn, hPair⟩ := Option.map_eq_some_iff.mp hSome
      cases hPair
      exact leftmostLongest_zero.mpr ((h [] _).mp hn)
    · intro hMatch
      obtain rfl : so = 0 := Nat.le_zero.mp hMatch.start
      rw [(h [] eo).mpr (leftmostLongest_zero.mp hMatch)]
      rfl
  | cons a text ih =>
    rw [Matching.search]
    split
    · rename_i n hn
      have hHere := (h (a :: text) n).mp hn
      constructor
      · intro hSome
        cases hSome
        exact leftmostLongest_zero.mpr hHere
      · intro hMatch
        cases so with
        | zero => rw [hHere.unique (leftmostLongest_zero.mp hMatch)]
        | succ so => exact absurd hHere.mem (hMatch.leftmost 0 (Nat.succ_pos so) n hHere.le)
    · rename_i hNone
      have hHere := h.eq_none_iff.mp hNone
      constructor
      · intro hSome
        obtain ⟨⟨so', eo'⟩, hRest, hPair⟩ := Option.map_eq_some_iff.mp hSome
        cases hPair
        exact ((ih so' eo').mp hRest).cons hHere
      · intro hMatch
        cases so with
        | zero =>
          have hLongest := leftmostLongest_zero.mp hMatch
          exact absurd hLongest.mem (hHere eo hLongest.le)
        | succ so =>
          obtain ⟨eo, rfl⟩ : ∃ k, eo = k + 1 :=
            Nat.exists_eq_add_one_of_ne_zero (Nat.ne_zero_of_lt (Nat.lt_of_succ_le hMatch.le))
          rw [(ih so eo).mpr hMatch.of_cons]
          rfl

theorem Computes.search_eq_none_iff (h : Computes f L) (text : List α) :
    Matching.search f text = none ↔ ∀ u, u <:+: text → u ∉ L := by
  induction text with
  | nil =>
    rw [Matching.search, Option.map_eq_none_iff, h.eq_none_iff]
    simp
  | cons a text ih =>
    rw [Matching.search]
    split
    · rename_i n hn
      have hHere := (h (a :: text) n).mp hn
      refine iff_of_false (Option.some_ne_none _) fun hNever => ?_
      exact hNever _ (List.take_prefix n _).isInfix hHere.mem
    · rename_i hNone
      have hHere := h.eq_none_iff.mp hNone
      rw [Option.map_eq_none_iff, ih]
      constructor
      · intro hNever u hInfix
        obtain hPrefix | hLater := List.infix_cons_iff.mp hInfix
        · rw [List.prefix_iff_eq_take.mp hPrefix]
          exact hHere u.length hPrefix.length_le
        · exact hNever u hLater
      · intro hNever u hInfix
        exact hNever u (List.infix_cons_iff.mpr (Or.inr hInfix))

end Manhattan.Library.Matching
