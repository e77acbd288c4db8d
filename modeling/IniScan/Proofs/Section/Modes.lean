import IniScan.Section.Match

/-!
# What each mode looks for

The tests of both modes come down to how a section name stands in the text: at its start, as all of it, or anywhere. A name
that exact mode finds is found in substring mode too, though the two may not settle on the same one.

* `isSome_ofWord?_exact`, `isSome_ofWord?_substring`: words.
* `isName_exact_iff`, `isName_substring_iff`: texts.
-/
namespace IniScan.Section

open Text

section

variable {w : Word}

/-- Words that agree up to case name the same section. -/
theorem ofWord?_congr {v w : Word} (h : v.lower = w.lower) (mode : MatchMode) : ofWord? mode v = ofWord? mode w := by
  simp only [ofWord?, opens, h]

theorem opens_iff {k : Section} : k.opens w = true ↔ k.letters <+: w.lower := List.isPrefixOf_iff_prefix

theorem isSome_ofWord?_exact : (ofWord? .exact w).isSome = true ↔ ∃ k : Section, k.letters <+: w.lower := by
  rw [ofWord?, List.isSome_maxOn?_iff, ne_eq, List.filter_eq_nil_iff]
  simp [mem_all, opens_iff]

theorem isSome_ofWord?_substring : (ofWord? .substring w).isSome = true ↔ ∃ k : Section, k.letters <:+: w.lower := by
  rw [ofWord?, List.find?_isSome]
  simp [mem_all, occursIn_iff]

theorem isSome_ofWord?_of_exact (h : (ofWord? .exact w).isSome = true) : (ofWord? .substring w).isSome = true := by
  obtain ⟨k, hk⟩ := isSome_ofWord?_exact.1 h
  exact isSome_ofWord?_substring.2 ⟨k, hk.isInfix⟩

end

section

variable {s : List Char}

theorem isName_exact_iff : isName .exact s = true ↔ ∃ k : Section, k.letters = lower s := by
  simp [isName, mem_all]

theorem isName_substring_iff : isName .substring s = true ↔ ∃ k : Section, k.letters <:+: lower s := by
  simp [isName, mem_all, occursIn_iff]

theorem isName_of_exact (h : isName .exact s = true) : isName .substring s = true := by
  obtain ⟨k, hk⟩ := isName_exact_iff.1 h
  exact isName_substring_iff.2 ⟨k, hk ▸ List.infix_refl _⟩

end

end IniScan.Section
