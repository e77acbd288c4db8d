import IniScan.Section.Match

/-!
# Probing for a header

A `[` at the start of a line opens a header only if a section name follows it. The probe reads blanks, then letters into
a word, and looks for a section name in that word. It stops after as many letters as it can need: in exact mode the
size of the longest name with that first letter, in substring mode the capacity of a word. Then or at
the first other character it decides, without consuming more.
-/
namespace IniScan.Header

/-- How far the probe has read. -/
inductive Probe where
  | blanks
  /-- At least one letter, and at most `window`. -/
  | letters (word : Word) (window : Nat)
  deriving DecidableEq, Repr

namespace Probe

/-- The number of letters worth reading if `c` is the first, zero if there is no point in reading any. -/
def window (mode : MatchMode) (c : Char) : Nat :=
  match mode with
  | .exact => Section.longestFrom c
  | .substring => if c.isAlpha then Word.capacity else 0

/-- The probe behind `c`, or none if `c` is no part of it. -/
def next (mode : MatchMode) (c : Char) : Probe → Option Probe
  | blanks =>
    if Text.isBlank c then some blanks
    else if window mode c = 0 then none
    else some (letters (Word.empty.push c) (window mode c))
  | letters word window =>
    if c.isAlpha && word.length < window then some (letters (word.push c) window) else none

/-- What has been read names a section. -/
def verdict (mode : MatchMode) : Probe → Bool
  | blanks => false
  | letters word _ => (Section.ofWord? mode word).isSome

/-- The verdict of the probe that goes on with this text. -/
def recognises (mode : MatchMode) (p : Probe) : List Char → Bool
  | [] => p.verdict mode
  | c :: cs =>
    match p.next mode c with
    | some q => q.recognises mode cs
    | none => p.verdict mode

end Probe

/-- The text behind a `[` names a section. -/
def isHeader (mode : MatchMode) (s : List Char) : Bool := Probe.blanks.recognises mode s

end IniScan.Header
