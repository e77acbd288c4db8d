import IniScan.Cursor
import IniScan.Scanner
import IniScan.Token

/-!
# A host

A host has a text, with a cursor in it, and a scanner. When its grammar needs a token it begins one at the cursor and
lets the scanner read. A token that is found moves the cursor to its end, which may lie behind what has been read. If
none is found the read position stays where it was. Either way the cursor keeps the notes that the scanner made.

* `scan_eq`: a scan is a reading at the cursor.
* `kind_nextToken`: the token has the kind that the scanner found.
* `pos_nextToken_of_none`: a call without a token does not move.
* `source_nextToken`: the text stays the same.
-/
namespace IniScan

/-- A scanner at work on a text. -/
structure Host where
  scanner : Scanner
  cursor : Cursor
  deriving DecidableEq, Repr

namespace Host

/-- A scanner that has read nothing, at the start of a text. -/
def ofText (c : Config) (s : List Char) : Host := ⟨Scanner.ofConfig c, Cursor.ofText s⟩

/-- Lets the scanner read at the cursor, and leaves the cursor where the scanner leaves it. -/
def scan (h : Host) (offered : KindSet) : Option Kind × Host :=
  let (reading, scanner) := h.scanner.call offered h.cursor.unread
  (reading.outcome, ⟨scanner, h.cursor.follow reading.moves⟩)

theorem scan_eq (h : Host) (offered : KindSet) : h.scan offered =
    ((h.scanner.read offered h.cursor.unread).outcome,
      ⟨h.scanner.settle offered, h.cursor.follow (h.scanner.read offered h.cursor.unread).moves⟩) := by
  rw [scan, Scanner.call_eq]

/-- The token at the cursor, if there is one of the kinds offered. -/
def nextToken (h : Host) (offered : KindSet) : Option Token × Host :=
  let (kind, after) := scan { h with cursor := h.cursor.begin } offered
  match kind with
  | some k =>
    let stop := after.cursor.tokenEnd
    (some ⟨k, UInt32.ofNat after.cursor.start, UInt32.ofNat stop⟩,
      { after with cursor := (h.cursor.advanceTo stop).noting after.cursor })
  | none => (none, { after with cursor := h.cursor.noting after.cursor })

theorem kind_nextToken (h : Host) (offered : KindSet) :
    (h.nextToken offered).1.map Token.kind = (h.scanner.read offered h.cursor.unread).outcome := by
  cases hr : (h.scanner.read offered h.cursor.unread).outcome <;> simp [nextToken, scan_eq, Cursor.begin, hr]

theorem pos_nextToken_of_none {h : Host} {offered : KindSet} (hn : (h.nextToken offered).1 = none) :
    (h.nextToken offered).2.cursor.pos = h.cursor.pos := by
  have hr := h.kind_nextToken offered
  rw [hn, Option.map_none] at hr
  simp [nextToken, scan_eq, Cursor.begin, ← hr, Cursor.noting]

@[simp] theorem source_scan (h : Host) (offered : KindSet) :
    (h.scan offered).2.cursor.source = h.cursor.source := by
  rw [scan_eq]
  exact Cursor.source_follow _ _

@[simp] theorem source_nextToken (h : Host) (offered : KindSet) :
    (h.nextToken offered).2.cursor.source = h.cursor.source := by
  cases hr : (h.scanner.read offered h.cursor.unread).outcome <;> simp [nextToken, scan_eq, Cursor.begin, hr]

end Host

end IniScan
