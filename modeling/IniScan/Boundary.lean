import IniScan.Reader
import IniScan.Text.Basic

/-!
# Boundaries between lines

A run of blanks and line ends is skipped as a whole, and a zero-width boundary stands behind it. It is a boundary only
if the run holds a line end or reaches the end of the text; blanks alone are left for the other readers.
-/
namespace IniScan.Boundary

open Text

/-- The state tells whether a line end has been skipped. -/
def step (ended : Bool) (c : Char) : Step Bool Bool :=
  if isLineEnd c then .go .skip true
  else if isBlank c then .go .skip ended
  else .stop ⟨ended, true⟩

/-- Tells whether there is a boundary. -/
def reader : Reader Bool Bool where
  start := false
  step := step
  atEnd _ := ⟨true, true⟩

end IniScan.Boundary
