import IniScan.KindSet
import IniScan.Reader
import IniScan.Text.Basic

/-!
# Namespace paths

A reference such as `\Mods\Hud\$scale` names a variable by a path between two separators. The grammar asks for
the opening separator, the content and the closing separator one after the other.

The content may hold separators itself: it ends before the last one that stands before an operator or the end of the
line. The content reader therefore marks each separator and looks on.
-/
namespace IniScan.Path

open Text

/-- The backslash. -/
def separator : Char := '\\'

/-- Characters that no path holds: the operators of an expression, and line ends. -/
def isTerminator (c : Char) : Bool :=
  ['=', '&', '|', '+', '-', '/', '*', '<', '>', '%', '!'].contains c || isLineEnd c

/-! ## Separators -/

/-- Tells whether the next character is a separator, and takes it. The state tells that it has been taken. -/
def separatorReader : Reader Bool Bool where
  start := false
  step taken c := if !taken && c = separator then .go .take true else .stop ⟨taken, false⟩
  atEnd taken := ⟨taken, false⟩

/-! ## Content -/

/-- Where the content reader stands: whether it has passed a separator, and whether it comes from a dollar sign. -/
structure State where
  separated : Bool
  dollar : Bool
  deriving DecidableEq, Repr

/-- A dollar sign and a separator side by side are a variable that the path would cut off, and refused. A path that no
separator closes is content only if an operator or a line end closes it. -/
def step (s : State) (c : Char) : Step State Bool :=
  if c = separator then
    if s.dollar then .stop ⟨false, false⟩ else .go .markTake ⟨true, false⟩
  else if isTerminator c then .stop ⟨true, !s.separated⟩
  else .go .take ⟨s.separated, c = '$'⟩

/-- Tells whether there is content. -/
def contentReader : Reader State Bool where
  start := ⟨false, false⟩
  step := step
  atEnd s := ⟨s.separated, false⟩

/-! ## Parts offered together -/

/-- Reads the part of a path that comes first among those offered. -/
def read (offered : KindSet) (unread : List Char) : Reading (Option Kind) :=
  if Kind.namespaceStart ∈ offered then
    (separatorReader.read unread).map fun found => if found then some .namespaceStart else none
  else if Kind.namespaceContent ∈ offered then
    (contentReader.read unread).map fun found => if found then some .namespaceContent else none
  else
    (separatorReader.read unread).map fun found => if found then some .namespaceEnd else none

end IniScan.Path
