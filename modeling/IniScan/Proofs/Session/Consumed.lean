import Mathlib.Data.List.Forall2
import IniScan.Proofs.Cursor.Slices

/-!
# Consuming text in any case

A host consumes a text of its grammar if it comes next, with or without regard to case. Without, what comes next is
compared up to case with as many bytes as the text has, and these may end inside a character or not be there. None of this
shows: the text is consumed exactly if its characters come next up to case, one by one, since those take the same bytes.

* `Text.SameLetters`: two texts character by character.
* `bumpIgnoreCase?_of_bump?`: what comes next as it stands comes next in any case.
* `consumed_in_any_case`: the step of a session, from any place.
-/
namespace IniScan

open Text

/-- The texts have equally many characters, which agree in order up to the case of ASCII letters. -/
def Text.SameLetters : List Char → List Char → Prop := List.Forall₂ fun c d => c.toLower = d.toLower

theorem Text.sameLetters_iff {s t : List Char} : SameLetters s t ↔ lower s = lower t := by
  rw [SameLetters, ← List.forall₂_eq_eq_eq, lower, lower, List.forall₂_map_left_iff, List.forall₂_map_right_iff]

namespace Cursor

variable {c d : Cursor} {s t : List Char}

theorem bumpIgnoreCase?_of_bump? (h : c.bump? s = some d) : c.bumpIgnoreCase? s = some d := by
  unfold bump? at h
  split at h
  · rename_i hprefix
    obtain ⟨rest, hrest⟩ := List.isPrefixOf_iff_prefix.1 hprefix
    exact bumpIgnoreCase?_eq_some_iff.2 ⟨s, rest, hrest.symm, rfl, (Option.some.inj h).symm⟩
  · cases h

theorem bumpIgnoreCase?_congr (c : Cursor) (h : lower s = lower t) : c.bumpIgnoreCase? s = c.bumpIgnoreCase? t :=
  Option.ext fun d => by rw [bumpIgnoreCase?_eq_some_iff, bumpIgnoreCase?_eq_some_iff, h]

end Cursor

namespace Session

/-- What the step that consumes `s` in any case comes to. -/
structure Consumes (x : Session) (s : List Char) : Prop where
  consumed_iff : (x.step (.bumpIgnoreCase s)).1 = .consumed true ↔
    ∃ head rest, x.host.cursor.unread = head ++ rest ∧ SameLetters head s
  /-- The cursor goes on by the bytes of `s`. It keeps its notes, and nothing else changes. -/
  moves : (x.step (.bumpIgnoreCase s)).1 = .consumed true → ∃ c : Cursor,
    (x.step (.bumpIgnoreCase s)).2 = { x with host := { x.host with cursor := c } } ∧
    c.pos = x.host.cursor.pos + byteSize s ∧ c.source = x.host.cursor.source ∧
    c.start = x.host.cursor.start ∧ c.stop = x.host.cursor.stop
  stays : (x.step (.bumpIgnoreCase s)).1 ≠ .consumed true → x.step (.bumpIgnoreCase s) = (.consumed false, x)
  /-- What is consumed as it stands is consumed in any case. -/
  of_bump : (x.step (.bump s)).1 = .consumed true → x.step (.bumpIgnoreCase s) = x.step (.bump s)
  congr : ∀ t, SameLetters t s → x.step (.bumpIgnoreCase t) = x.step (.bumpIgnoreCase s)
  /-- The slices that a host in bytes takes for it do not abort, and come to the same. -/
  bytes : x.stepBytes? (.bumpIgnoreCase s) = some (x.step (.bumpIgnoreCase s))

theorem step_bumpIgnoreCase (x : Session) (s : List Char) :
    x.step (.bumpIgnoreCase s) = x.moveTo (x.host.cursor.bumpIgnoreCase? s) := rfl

theorem moveTo_consumed_iff {x : Session} {c : Option Cursor} : (x.moveTo c).1 = .consumed true ↔ ∃ d, c = some d := by
  cases c <;> simp [moveTo]

/-- **Text is consumed in any case character by character.** From every place of a session and for every text, whether it
is of ASCII characters or not. -/
theorem consumed_in_any_case (x : Session) (s : List Char) : x.Consumes s := by
  refine ⟨?_, ?_, ?_, ?_, ?_, ?_⟩
  · rw [step_bumpIgnoreCase, moveTo_consumed_iff]
    simp only [Cursor.bumpIgnoreCase?_eq_some_iff, sameLetters_iff]
    refine ⟨?_, ?_⟩
    · rintro ⟨d, head, rest, hunread, hcase, -⟩
      exact ⟨head, rest, hunread, hcase⟩
    · rintro ⟨head, rest, hunread, hcase⟩
      exact ⟨_, head, rest, hunread, hcase, rfl⟩
  · rw [step_bumpIgnoreCase, moveTo_consumed_iff]
    rintro ⟨d, hd⟩
    obtain ⟨head, rest, hunread, hcase, rfl⟩ := Cursor.bumpIgnoreCase?_eq_some_iff.1 hd
    have hsize : byteSize head = byteSize s := by rw [← byteSize_lower head, hcase, byteSize_lower]
    refine ⟨_, by rw [hd]; rfl, ?_, Cursor.source_pass _ _, rfl, rfl⟩
    rw [Cursor.pos_pass, hunread, List.take_left' rfl, hsize]
  · rw [step_bumpIgnoreCase, Ne, moveTo_consumed_iff]
    intro hnone
    cases h : x.host.cursor.bumpIgnoreCase? s with
    | none => rfl
    | some d => exact absurd ⟨d, h⟩ hnone
  · intro hbump
    obtain ⟨d, hd⟩ := moveTo_consumed_iff.1 hbump
    show x.moveTo _ = x.moveTo _
    rw [hd, Cursor.bumpIgnoreCase?_of_bump? hd]
  · intro t ht
    rw [step_bumpIgnoreCase, step_bumpIgnoreCase, x.host.cursor.bumpIgnoreCase?_congr (sameLetters_iff.1 ht)]
  · rw [stepBytes?, Cursor.bumpBytesIgnoreCase?_eq]
    rfl

/-- The first byte of `é` is no text, so one byte is not there to be compared. -/
example : (Cursor.ofText "éKy".toList).bumpIgnoreCase? "e".toList = none ∧
    ((Cursor.ofText "éKy".toList).bumpIgnoreCase? "ék".toList).map Cursor.pos = some 3 := by decide

end Session

end IniScan
