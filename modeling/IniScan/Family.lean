import IniScan.KindSet

/-!
# Families of kinds

Each kind that can be a token belongs to one of five families, and the kinds of a family are told apart by one
reading of the text. A grammar may offer kinds of several families at once. Then the first family in the
order of `Family.all` that is offered reads the text, and the others have no say.

* `of?_eq_none_iff`: no family is offered exactly when nothing but the error sentinel can be.
-/
namespace IniScan

/-- Kinds that are told apart by one reading. -/
inductive Family where
  /-- The boundary between lines. -/
  | boundary
  /-- The parts of a namespace path. -/
  | path
  /-- The subject of a header. -/
  | subject
  /-- The name of a regex header. -/
  | regexName
  /-- A line of content, or the header that ends the section. -/
  | line
  deriving DecidableEq, Repr

namespace Family

/-- The families, the one that wins first. -/
def all : List Family := [boundary, path, subject, regexName, line]

def kinds : Family → KindSet
  | boundary => {Kind.lineBoundary}
  | path => KindSet.path
  | subject => KindSet.suffixed
  | regexName => KindSet.regex
  | line => KindSet.line

/-- The family that reads the text when these kinds are offered. -/
def of? (offered : KindSet) : Option Family := all.find? fun f => offered.meets f.kinds

theorem of?_eq_none_iff {offered : KindSet} : of? offered = none ↔ ∀ k ∈ offered, k = .errorSentinel := by
  simp only [of?, List.find?_eq_none, Bool.not_eq_true]
  constructor
  · intro h k hk
    have key : k = .errorSentinel ∨ ∃ f ∈ all, k ∈ f.kinds := by cases k <;> decide
    refine key.resolve_right ?_
    rintro ⟨f, hf, hkf⟩
    have := KindSet.meets_iff.2 ⟨k, hk, hkf⟩
    simp [h f hf] at this
  · intro h f hf
    refine Bool.eq_false_iff.2 fun hm => ?_
    obtain ⟨k, hk, hkf⟩ := KindSet.meets_iff.1 hm
    obtain rfl := h k hk
    have key : ∀ f ∈ all, Kind.errorSentinel ∉ f.kinds := by decide
    exact key f hf hkf

end Family

end IniScan
