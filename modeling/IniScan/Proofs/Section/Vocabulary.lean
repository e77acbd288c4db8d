import IniScan.Section.Match
import IniScan.Proofs.Text.Case

/-!
# The vocabulary is a prefix code

No section name begins with another one, so a text begins with at most one of them and the order of the vocabulary
never matters at the start of a text.

* `eq_of_prefixes`: two names at the start of one text are the same.
* `headerSuffixKinds_letters`: a name is looked up as the section that has it.
-/
namespace IniScan.Section

theorem eq_of_prefix_letters {j k : Section} (h : j.letters <+: k.letters) : j = k := by
  have key : ∀ j ∈ all, ∀ k ∈ all, j.letters.isPrefixOf k.letters = true → j = k := by decide
  exact key j (mem_all j) k (mem_all k) (List.isPrefixOf_iff_prefix.2 h)

theorem eq_of_prefixes {j k : Section} {s : List Char} (hj : j.letters <+: s) (hk : k.letters <+: s) : j = k := by
  rcases List.prefix_or_prefix_of_prefix hj hk with h | h
  · exact eq_of_prefix_letters h
  · exact (eq_of_prefix_letters h).symm

theorem lower_letters (k : Section) : Text.lower k.letters = k.letters := by cases k <;> decide

theorem isAlpha_of_mem_letters {k : Section} {c : Char} (h : c ∈ k.letters) : c.isAlpha = true := by
  have key : ∀ k ∈ all, k.letters.all Char.isAlpha = true := by decide
  exact List.all_eq_true.1 (key k (mem_all k)) c h

theorem ofName?_letters (k : Section) : ofName? k.letters = some k := by cases k <;> decide

theorem headerSuffixKinds_letters (k : Section) : headerSuffixKinds k.letters = k.suffixKinds := by
  rw [headerSuffixKinds, ofName?_letters]
  rfl

/-! ## How many letters are worth reading -/

theorem length_letters_le (k : Section) : k.letters.length ≤ 29 := by cases k <;> decide

theorem longestFrom_cases (c : Char) : longestFrom c = 0 ∨
    ∃ k : Section, k.letters.head? = some c.toLower ∧ longestFrom c = k.letters.length := by
  unfold longestFrom
  cases hmax : ((all.filter fun k => k.letters.head? = some c.toLower).map fun k => k.letters.length).max? with
  | none => exact Or.inl rfl
  | some n =>
    right
    obtain ⟨k, hk, rfl⟩ := List.mem_map.1 (List.max?_mem hmax)
    rw [List.mem_filter, decide_eq_true_eq] at hk
    exact ⟨k, hk.2, rfl⟩

theorem length_le_longestFrom {k : Section} {c : Char} (h : k.letters.head? = some c.toLower) :
    k.letters.length ≤ longestFrom c := by
  have hmem : k.letters.length ∈ (all.filter fun k => k.letters.head? = some c.toLower).map fun k => k.letters.length :=
    List.mem_map_of_mem (List.mem_filter.2 ⟨mem_all k, decide_eq_true h⟩)
  unfold longestFrom
  cases hmax : ((all.filter fun k => k.letters.head? = some c.toLower).map fun k => k.letters.length).max? with
  | none =>
    rw [List.max?_eq_none_iff.1 hmax] at hmem
    cases hmem
  | some n => exact (List.max?_eq_some_iff.1 hmax).2 _ hmem

end IniScan.Section
