import IniScan.Proofs.Family.Collect
import IniScan.Proofs.Reading.Orderly
import IniScan.Proofs.Reading.Stretch

/-!
# Which family reads, and what it may find

The families are tried in their order, so a family reads exactly when it is offered and none in front of it is. What
it finds is one of its own kinds, and what it skips in front of a token depends on the kind alone (`Kind.skips`).

* `Path.found_of_read`: the part of a path that is found.
* `of?_eq`: the family that reads, by cases of what is offered.
* `read_of_family`: without the error sentinel a scanner reads as the family does, whatever its word holds.
* `mem_kinds_of_read`: what a family finds is of the family.
* `spans_read`: the reading of a scanner has a span, whatever is offered, and what it skips is what its kind may skip.
-/
namespace IniScan

open Text

/-- The characters that may be skipped in front of a token of the kind. -/
def Kind.skips : Kind → Char → Bool
  | .lineBoundary, c => isBlank c || isLineEnd c
  | .externalLine, c | .headerStart, c | .keySuffix, c | .presetSuffix, c | .resourceSuffix, c
  | .includeSuffix, c | .commandListSuffix, c => isBlank c
  | _, _ => false

/-! ## Parts of a path -/

namespace Path

/-- How a part of a path is found: which are offered, and whose calls are made. -/
inductive Found (offered : KindSet) (unread : List Char) : Kind → Prop where
  | start (hmem : Kind.namespaceStart ∈ offered)
      (hmoves : (read offered unread).moves = (separatorReader.read unread).moves) : Found offered unread .namespaceStart
  | content (hmem : Kind.namespaceContent ∈ offered)
      (hmoves : (read offered unread).moves = (contentReader.read unread).moves)
      (hfound : (contentReader.read unread).outcome = true) : Found offered unread .namespaceContent
  | close (hstart : Kind.namespaceStart ∉ offered) (hcontent : Kind.namespaceContent ∉ offered)
      (hmoves : (read offered unread).moves = (separatorReader.read unread).moves) : Found offered unread .namespaceEnd

theorem found_of_read {offered : KindSet} {unread : List Char} {k : Kind}
    (h : (read offered unread).outcome = some k) : Found offered unread k := by
  by_cases hstart : Kind.namespaceStart ∈ offered
  · have hread : read offered unread =
        (separatorReader.read unread).map fun found => if found then some .namespaceStart else none := if_pos hstart
    rw [hread, Reading.outcome_map] at h
    split at h <;> cases h
    exact .start hstart (by rw [hread, Reading.moves_map])
  by_cases hcontent : Kind.namespaceContent ∈ offered
  · have hread : read offered unread =
        (contentReader.read unread).map fun found => if found then some .namespaceContent else none := by
      rw [read, if_neg hstart, if_pos hcontent]
    rw [hread, Reading.outcome_map] at h
    split at h <;> cases h
    exact .content hcontent (by rw [hread, Reading.moves_map]) ‹_›
  · have hread : read offered unread =
        (separatorReader.read unread).map fun found => if found then some .namespaceEnd else none := by
      rw [read, if_neg hstart, if_neg hcontent]
    rw [hread, Reading.outcome_map] at h
    split at h <;> cases h
    exact .close hstart hcontent (by rw [hread, Reading.moves_map])

end Path

/-! ## Families -/

namespace Family

theorem meets_singleton {offered : KindSet} {k : Kind} : offered.meets {k} = true ↔ k ∈ offered := by
  simp [KindSet.meets_iff]

/-- The families are asked for in their order. -/
theorem of?_eq (offered : KindSet) : of? offered =
    if Kind.lineBoundary ∈ offered then some .boundary
    else if offered.meets KindSet.path then some .path
    else if offered.meets KindSet.suffixed then some .subject
    else if offered.meets KindSet.regex then some .regexName
    else if offered.meets KindSet.line then some .line
    else none := by
  simp only [of?, all, List.find?_cons, kinds, ← meets_singleton]
  cases offered.meets {Kind.lineBoundary} <;> cases offered.meets KindSet.path <;>
    cases offered.meets KindSet.suffixed <;> cases offered.meets KindSet.regex <;>
    cases offered.meets KindSet.line <;> rfl

theorem of?_of_boundary {offered : KindSet} (h : Kind.lineBoundary ∈ offered) : of? offered = some .boundary := by
  rw [of?_eq, if_pos h]

theorem of?_of_regexName {offered : KindSet} (hboundary : Kind.lineBoundary ∉ offered)
    (hpath : offered.meets KindSet.path = false) (hsuffixed : offered.meets KindSet.suffixed = false)
    (hregex : offered.meets KindSet.regex = true) : of? offered = some .regexName := by
  rw [of?_eq, if_neg hboundary, hpath, hsuffixed, hregex]
  rfl

/-- The characters that the family skips in front of its tokens. -/
def skips : Family → Char → Bool
  | boundary, c => isBlank c || isLineEnd c
  | subject, c | line, c => isBlank c
  | path, _ | regexName, _ => false

theorem skips_of_mem_kinds {f : Family} {k : Kind} (hk : k ∈ f.kinds) (c : Char) : k.skips c = f.skips c := by
  cases f <;> cases k <;> first | rfl | (exfalso; revert hk; decide)

theorem spans_read (f : Family) (mode : MatchMode) (offered : KindSet) (unread : List Char) :
    ∃ a b, (f.read mode offered unread).Spans a b ∧ b ≤ unread.length ∧ ∀ c ∈ unread.take a, f.skips c = true := by
  cases f with
  | boundary => exact boundary_orderly.spans unread
  | subject => exact subject_orderly.spans unread
  | regexName => exact regexName_orderly.spans unread
  | line => exact (line_orderly mode).spans unread
  | path =>
    simp only [read, Path.read]
    split
    · exact separator_orderly.spans unread
    split
    · exact content_orderly.spans unread
    · exact separator_orderly.spans unread

theorem line_outcome_mem (mode : MatchMode) (unread : List Char) :
    ((Line.reader mode).read unread).outcome ∈ KindSet.line := by
  apply Reader.outcome_of_forall
  · intro s c e h
    cases Line.ends_of_step h <;> decide
  · intro s
    simp only [Line.reader, Line.atEnd]
    split
    · split <;> decide
    · decide

theorem regexName_kind_mem (q : Header.RegexName.State) : q.kind ∈ KindSet.regex := by
  cases q with
  | outside => decide
  | dot => decide
  | insert part => simp only [Header.RegexName.State.kind]; split <;> decide
  | pattern part => simp only [Header.RegexName.State.kind]; split <;> decide
  | replace part => simp only [Header.RegexName.State.kind]; split <;> decide

theorem regexName_outcome_mem (unread : List Char) :
    (Header.RegexName.reader.read unread).outcome ∈ KindSet.regex := by
  apply Reader.outcome_of_forall
  · intro s c e h
    simp only [Header.RegexName.reader] at h
    split at h <;> cases h
    exact regexName_kind_mem s
  · intro s
    simp only [Header.RegexName.reader]
    decide

theorem mem_kinds_of_read {f : Family} {mode : MatchMode} {offered : KindSet} {unread : List Char} {k : Kind}
    (h : (f.read mode offered unread).outcome = some k) : k ∈ f.kinds := by
  cases f with
  | boundary =>
    simp only [read, Reading.outcome_map] at h
    split at h <;> cases h
    decide
  | path => cases Path.found_of_read h <;> decide
  | subject =>
    simp only [read, Reading.outcome_map, Header.Subject.kind?] at h
    split at h
    · exact KindSet.mem_ofList.2 (List.mem_of_find?_eq_some h)
    · split at h <;> cases h
      decide
  | regexName =>
    have hk := (KindSet.find?_eq_some_iff.1 h).1
    exact hk ▸ regexName_outcome_mem unread
  | line =>
    have hk := (KindSet.find?_eq_some_iff.1 h).1
    exact hk ▸ line_outcome_mem mode unread

end Family

namespace Scanner

theorem read_of_family (s : Scanner) {offered : KindSet} {f : Family} (hs : Kind.errorSentinel ∉ offered)
    (hf : Family.of? offered = some f) (unread : List Char) :
    s.read offered unread = f.read s.config.mode offered unread := by
  rw [← f.collect_eq s.config.mode offered s.word unread]
  simp [read, call, recovering, hs, hf]

/-- A scanner that finds something has let a family read. -/
theorem exists_family_of_read {s : Scanner} {offered : KindSet} {unread : List Char} {k : Kind}
    (h : (s.read offered unread).outcome = some k) : ∃ f, Kind.errorSentinel ∉ offered ∧
      Family.of? offered = some f ∧ s.read offered unread = f.read s.config.mode offered unread := by
  by_cases hs : Kind.errorSentinel ∈ offered
  · rw [s.read_of_recovering hs] at h
    cases h
  cases hf : Family.of? offered with
  | none =>
    rw [s.read_of_no_family hf] at h
    cases h
  | some f => exact ⟨f, hs, rfl, s.read_of_family hs hf unread⟩

theorem spans_read {s : Scanner} {offered : KindSet} {unread : List Char} {k : Kind}
    (h : (s.read offered unread).outcome = some k) :
    ∃ a b, (s.read offered unread).Spans a b ∧ b ≤ unread.length ∧ ∀ c ∈ unread.take a, k.skips c = true := by
  obtain ⟨f, -, -, hf⟩ := exists_family_of_read h
  rw [hf] at h ⊢
  obtain ⟨a, b, hs, hb, hc⟩ := f.spans_read s.config.mode offered unread
  refine ⟨a, b, hs, hb, ?_⟩
  intro c hm
  rw [Family.skips_of_mem_kinds (Family.mem_kinds_of_read h)]
  exact hc c hm

end Scanner

end IniScan
