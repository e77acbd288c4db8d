import IniScan.Reader
import IniScan.KindSet
import IniScan.Text.Basic

/-!
# Subjects of headers

Behind its section name a header such as `[KeyToggleHud]` has a subject, which goes up to the closing bracket or to the
end of the line. Blanks around it are no part of it, blanks inside it are. Each character of text is marked, so the
blanks behind the last one fall off.
-/
namespace IniScan.Header.Subject

open Text

/-- The bracket and line ends close a header. -/
def isClosing (c : Char) : Bool := c = ']' || isLineEnd c

/-- The state tells whether text has been taken. Only a subject without text is marked where it ends. -/
def step (text : Bool) (c : Char) : Step Bool Bool :=
  if isClosing c then .stop ⟨text, !text⟩
  else if isBlank c then .go (if text then .take else .skip) text
  else .go .takeMark true

/-- Tells whether the subject holds text. -/
def reader : Reader Bool Bool where
  start := false
  step := step
  atEnd text := ⟨text, !text⟩

/-- The kind of a subject among those offered: the preferred one if it holds text, else the only one that may
be empty. -/
def kind? (offered : KindSet) (text : Bool) : Option Kind :=
  if text then Kind.suffixed.find? (· ∈ offered)
  else if Kind.includeSuffix ∈ offered then some .includeSuffix else none

end IniScan.Header.Subject
