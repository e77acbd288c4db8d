import IniScan.Scanner
import IniScan.Proofs.Reading.Alike

/-!
# What was in the word does not matter

A collector starts with whatever the word of the scanner holds, and empties the word where a part begins. So in each of its
states the word either is not looked at before it is emptied, or holds what this reading has collected, and the
collector goes as the reader does that keeps its letters to itself.

The relation for the names of regex headers has a clause that is easily missed: outside a dotted part the word must be
empty, since the first letter of a part is pushed on whatever is there.

* `RegexName.collector_alike`, `Line.collector_alike`: the two collectors.
* `Family.collect_eq`: for every family the outcome and the calls are those that the text alone tells.
-/
namespace IniScan

open Text Header

namespace Header.RegexName

/-- The collector stands where the reader stands, and the word holds what the reader has of the part. -/
def Stands : Search × Word → State → Prop
  | (.outside, word), s => word = Word.empty ∧ s = .outside
  | (.dot, word), s => word = Word.empty ∧ s = .dot
  | (.insert, word), s => s = .insert word
  | (.pattern, word), s => s = .pattern word
  | (.replace, word), s => s = .replace word

theorem stands_outside : Stands (.outside, Word.empty) .outside := ⟨rfl, rfl⟩

theorem stands_next {p : Search × Word} {s : State} (h : Stands p s) (c : Char) :
    Stands (p.1.next c p.2) (s.next c) := by
  obtain ⟨search, word⟩ := p
  cases search with
  | outside =>
    obtain ⟨rfl, rfl⟩ := h
    simp only [Search.next, State.next]
    split
    · exact ⟨rfl, rfl⟩
    · exact stands_outside
  | dot =>
    obtain ⟨rfl, rfl⟩ := h
    simp only [Search.next, State.next]
    split
    · exact rfl
    split
    · exact rfl
    · exact stands_outside
  | insert =>
    obtain rfl := h
    simp only [Search.next, State.next]
    split
    · exact stands_outside
    · exact rfl
  | pattern =>
    obtain rfl := h
    simp only [Search.next, State.next]
    split
    · split
      · exact rfl
      · exact stands_outside
    · exact rfl
  | replace =>
    obtain rfl := h
    simp only [Search.next, State.next]
    split
    · exact stands_outside
    · exact rfl

theorem kind_of_stands {p : Search × Word} {s : State} (h : Stands p s) : p.1.kind p.2 = s.kind := by
  obtain ⟨search, word⟩ := p
  cases search with
  | outside => obtain ⟨-, rfl⟩ := h; rfl
  | dot => obtain ⟨-, rfl⟩ := h; rfl
  | insert => obtain rfl := h; rfl
  | pattern => obtain rfl := h; rfl
  | replace => obtain rfl := h; rfl

theorem collector_alike (word : Word) : (collector word).Alike reader Stands Prod.fst := by
  refine ⟨stands_outside, ?_, fun _ => rfl⟩
  intro p s h c
  simp only [collector, reader]
  split
  · rw [← kind_of_stands h]
    exact .stop _
  · exact .go .take (stands_next h c)

end Header.RegexName

namespace Line

/-- The collector stands where the reader stands. In a name the word holds what the reader has of it, and elsewhere
the word does not matter. -/
def Stands : Place × Word → State → Prop
  | (.start, _), s => s = .start
  | (.bracket, _), s => s = .header .blanks
  | (.name window, word), s => s = .header (.letters word window)
  | (.content, _), s => s = .content

theorem alike_content (word : Word) (c : Char) :
    Step.Alike Stands Prod.fst (collectContent word c) (contentStep c) := by
  unfold collectContent contentStep
  split
  · exact .stop _
  · exact .go .take rfl

theorem alike_step (mode : MatchMode) {p : Place × Word} {s : State} (h : Stands p s) (c : Char) :
    Step.Alike Stands Prod.fst (collectStep mode p.1 p.2 c) (step mode s c) := by
  obtain ⟨place, word⟩ := p
  cases place with
  | start =>
    obtain rfl := h
    simp only [collectStep, step]
    split
    · exact .go .skip rfl
    split
    · exact .stop _
    split
    · exact .go .markTake rfl
    · exact alike_content word c
  | bracket =>
    obtain rfl := h
    simp only [collectStep, step, Probe.next]
    split
    · exact .go .take rfl
    split
    · exact alike_content word c
    · exact .go .take rfl
  | name window =>
    obtain rfl := h
    have hverdict : (Probe.letters word window).verdict mode = (Section.ofWord? mode word).isSome := rfl
    simp only [collectStep, step, Probe.next]
    split
    · exact .go .take rfl
    · cases hname : (Section.ofWord? mode word).isSome with
      | true =>
        rw [hname] at hverdict
        simp only [hverdict, if_true]
        exact .stop _
      | false =>
        rw [hname] at hverdict
        simp only [hverdict, Bool.false_eq_true, if_false]
        exact alike_content word.reset c
  | content =>
    obtain rfl := h
    exact alike_content word c

theorem atEnd_of_stands (mode : MatchMode) {p : Place × Word} {s : State} (h : Stands p s) :
    atEnd mode s = (collectAtEnd mode p.1 p.2).map Prod.fst := by
  obtain ⟨place, word⟩ := p
  cases place with
  | start => obtain rfl := h; rfl
  | bracket => obtain rfl := h; rfl
  | name window =>
    obtain rfl := h
    have hverdict : (Probe.letters word window).verdict mode = (Section.ofWord? mode word).isSome := rfl
    simp only [atEnd, collectAtEnd, hverdict]
    split <;> rfl
  | content => obtain rfl := h; rfl

theorem collector_alike (mode : MatchMode) (word : Word) :
    (collector mode word).Alike (reader mode) Stands Prod.fst :=
  ⟨rfl, fun h c => alike_step mode h c, fun h => atEnd_of_stands mode h⟩

end Line

/-- Whatever the word holds, a family finds what the text alone tells. -/
theorem Family.collect_eq (f : Family) (mode : MatchMode) (offered : KindSet) (word : Word) (unread : List Char) :
    (f.collect mode offered word unread).map Prod.fst = f.read mode offered unread := by
  cases f with
  | boundary => rfl
  | path => rfl
  | subject => rfl
  | regexName =>
    simp only [collect, read]
    rw [(Header.RegexName.collector_alike word).read unread]
    rfl
  | line =>
    simp only [collect, read]
    rw [(Line.collector_alike mode word).read unread]
    rfl

end IniScan
