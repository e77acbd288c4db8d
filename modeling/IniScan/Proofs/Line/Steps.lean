import IniScan.Line

/-!
# The steps of a line

What the reader of lines can do with a character, each way once: four ways to go past it (`Goes`) and three to end in front
of it (`Ends`). A law that is to hold of every step needs a look at no more than these.

* `goes_of_step`, `ends_of_step`: there are no others.
-/
namespace IniScan.Line

open Text Header

/-- The ways to go past a character. -/
inductive Goes (mode : MatchMode) : State → Char → Advance → State → Prop where
  | blank {c : Char} (hc : isBlank c = true) : Goes mode .start c .skip .start
  | bracket : Goes mode .start '[' .markTake (.header .blanks)
  | probe {p q : Probe} {c : Char} (hq : p.next mode c = some q) : Goes mode (.header p) c .take (.header q)
  /-- From anywhere, since a failed probe leaves what it has read to the content. -/
  | content {s : State} {c : Char} (hc : isLineEnd c = false) : Goes mode s c .take .content

/-- The ways to end in front of a character. -/
inductive Ends (mode : MatchMode) : State → Char → Ending Kind → Prop where
  | comment : Ends mode .start ';' ⟨.externalLine, true⟩
  /-- The mark in front of the bracket has been made. -/
  | header {p : Probe} {c : Char} (hn : p.next mode c = none) (hv : p.verdict mode = true) :
      Ends mode (.header p) c ⟨.headerStart, false⟩
  | lineEnd {s : State} {c : Char} (hc : isLineEnd c = true) : Ends mode s c ⟨.externalLine, true⟩

section

variable {mode : MatchMode} {s t : State} {c : Char}

theorem goes_of_contentStep {how : Advance} (h : contentStep c = .go how t) : Goes mode s c how t := by
  unfold contentStep at h
  split at h
  · cases h
  · cases h
    exact .content (Bool.eq_false_iff.2 ‹_›)

theorem ends_of_contentStep {e : Ending Kind} (h : contentStep c = .stop e) : Ends mode s c e := by
  unfold contentStep at h
  split at h
  · cases h
    exact .lineEnd ‹_›
  · cases h

theorem goes_of_step {how : Advance} (h : (reader mode).step s c = .go how t) : Goes mode s c how t := by
  cases s with
  | start =>
    simp only [reader, step] at h
    split at h
    · cases h
      exact .blank ‹_›
    split at h
    · cases h
    split at h
    · rename_i hc
      subst hc
      cases h
      exact .bracket
    · exact goes_of_contentStep h
  | header p =>
    simp only [reader, step] at h
    split at h
    · cases h
      exact .probe ‹_›
    split at h
    · cases h
    · exact goes_of_contentStep h
  | content => exact goes_of_contentStep h

theorem ends_of_step {e : Ending Kind} (h : (reader mode).step s c = .stop e) : Ends mode s c e := by
  cases s with
  | start =>
    simp only [reader, step] at h
    split at h
    · cases h
    split at h
    · rename_i hc
      subst hc
      cases h
      exact .comment
    split at h
    · cases h
    · exact ends_of_contentStep h
  | header p =>
    simp only [reader, step] at h
    split at h
    · cases h
    split at h
    · cases h
      exact .header ‹_› ‹_›
    · exact ends_of_contentStep h
  | content => exact ends_of_contentStep h

end

end IniScan.Line
