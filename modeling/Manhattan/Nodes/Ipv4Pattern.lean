import Manhattan.Library.Matching
import Manhattan.Nodes.Addresses

/-! # The pattern of extract_ipv4

`(([0-9]{1,3}\.){3}[0-9]{1,3})` as a language. The match that `regexec` finds is the leftmost and
the longest there.
-/

namespace Manhattan.Nodes

open Library.CStrings Library.Matching

/-- `[0-9]{1,3}` -/
def group : Language Byte := repeats isDigit 1 3

def ipv4 : Language Byte := (group * {[46]}) ^ 3 * group

theorem point_not_mem_group : ∀ u ∈ group, (46 : Byte) ∉ u := by
  intro u hu hPoint
  have hDigit := (mem_repeats.mp hu).2.2 46 hPoint
  cases hDigit

theorem computes_groupLength : Computes groupLength group := by
  intro text n
  rw [group, ← computes_repeats isDigit 1 3 text n, groupLength]
  simp only [repeatsLength, Nat.lt_one_iff]

theorem computes_dottedLength : Computes dottedLength (group * {[46]}) :=
  computes_groupLength.mul_letter point_not_mem_group

theorem matchLength_eq (text : List Byte) : matchLength text = (do
    let first ← dottedLength text
    let rest ← (do
      let second ← dottedLength (text.drop first)
      let rest ← (do
        let third ← dottedLength ((text.drop first).drop second)
        let last ← groupLength (((text.drop first).drop second).drop third)
        return third + last)
      return second + rest)
    return first + rest) := by
  simp only [matchLength, List.drop_drop, Option.bind_eq_bind, Option.bind_assoc,
    Option.pure_def, Option.bind_some, Nat.add_assoc]

theorem computes_matchLength : Computes matchLength ipv4 := by
  have hFree : PrefixFree (group * {[46]}) := prefixFree_mul_singleton point_not_mem_group
  have hThree := computes_dottedLength.mul
    (computes_dottedLength.mul (computes_dottedLength.mul computes_groupLength hFree) hFree) hFree
  have hPattern : ipv4 = group * {[46]} * (group * {[46]} * (group * {[46]} * group)) := by
    rw [ipv4, pow_succ, pow_succ, pow_one, mul_assoc, mul_assoc]
  intro text n
  rw [hPattern, ← hThree text n, matchLength_eq]

theorem regexec_eq_search (text : List Byte) : regexec text = search matchLength text := by
  induction text with
  | nil => rfl
  | cons b rest ih =>
    rw [regexec, search]
    cases matchLength (b :: rest) with
    | some n => rfl
    | none => exact congrArg (Option.map _) ih

theorem regexec_iff (text : List Byte) (so eo : Nat) :
    regexec text = some (so, eo) ↔ LeftmostLongest ipv4 text so eo := by
  rw [regexec_eq_search]
  exact computes_matchLength.search text so eo

theorem regexec_eq_none_iff (text : List Byte) :
    regexec text = none ↔ ∀ u, u <:+: text → u ∉ ipv4 := by
  rw [regexec_eq_search]
  exact computes_matchLength.search_eq_none_iff text

theorem extractIpv4_eq_some_iff (str ip : CString) : extractIpv4 str = some ip ↔
    ∃ so eo, LeftmostLongest ipv4 str.chars so eo ∧
      ip.chars = (str.chars.drop so).take (eo - so) := by
  constructor
  · intro h
    obtain ⟨⟨so, eo⟩, hMatch, hIp⟩ := Option.bind_eq_some_iff.mp h
    obtain rfl := Option.some.inj hIp
    exact ⟨so, eo, (regexec_iff _ so eo).mp hMatch, rfl⟩
  · rintro ⟨so, eo, hMatch, hIp⟩
    rw [extractIpv4, (regexec_iff _ so eo).mpr hMatch]
    exact congrArg some (CString.ext hIp.symm)

theorem extractIpv4_mem {str ip : CString} (h : extractIpv4 str = some ip) : ip.chars ∈ ipv4 := by
  obtain ⟨so, eo, hMatch, hIp⟩ := (extractIpv4_eq_some_iff str ip).mp h
  rw [hIp]
  exact hMatch.longest.mem

/-- An address is found in itself. -/
theorem extractIpv4_of_mem {ip : CString} (h : ip.chars ∈ ipv4) : extractIpv4 ip = some ip := by
  refine (extractIpv4_eq_some_iff ip ip).mpr ⟨0, ip.chars.length, ?_, ?_⟩
  · refine leftmostLongest_zero.mpr ⟨Nat.le_refl _, ?_, fun k hk _ => hk⟩
    rwa [List.take_length]
  · rw [List.drop_zero, Nat.sub_zero, List.take_length]

/-- What is extracted is the leftmost longest match of the pattern, NULL comes out only where the
pattern occurs nowhere, and what is extracted is extracted again from itself. -/
theorem extractIpv4_matches (str : CString) :
    (∀ ip, extractIpv4 str = some ip ↔ ∃ so eo, LeftmostLongest ipv4 str.chars so eo ∧
      ip.chars = (str.chars.drop so).take (eo - so)) ∧
    (extractIpv4 str = none ↔ ∀ u, u <:+: str.chars → u ∉ ipv4) ∧
    ∀ ip, extractIpv4 str = some ip → extractIpv4 ip = some ip := by
  refine ⟨extractIpv4_eq_some_iff str, ?_, ?_⟩
  · rw [← regexec_eq_none_iff, extractIpv4]
    cases regexec str.chars <;> simp
  · intro ip h
    exact extractIpv4_of_mem (extractIpv4_mem h)

end Manhattan.Nodes
