import IniScan.Header.RegexName
import IniScan.Line

/-!
# Collecting in the word of a scanner

A scanner has one word. What is read for the name of a regex header and for the name behind the `[` of a line is
collected in it, so a reading may meet letters there that another reading or a host has left. The collectors are the
readers that work on this word: their states tell what the word is collected for, and their outcomes hold the word
as it is left.

A collector empties the word where a new part of the text begins, and nowhere else.
-/
namespace IniScan

open Text Header

namespace Header.RegexName

/-- What the word is collected for. -/
inductive Search where
  /-- For nothing: in the name, or in a dotted part that is none of the known ones. -/
  | outside
  /-- For nothing yet: right behind a dot. -/
  | dot
  | insert
  | pattern
  | replace
  deriving DecidableEq, Repr

namespace Search

/-- The search and the word behind one more character of the name. -/
def next (c : Char) : Search → Word → Search × Word
  | outside, word => (if c = '.' then dot else outside, word)
  | dot, word =>
    if c = 'i' ∨ c = 'I' then (insert, word.push c)
    else if c = 'p' ∨ c = 'P' then (pattern, word.push c)
    else (outside, word)
  | insert, word => if c = '.' then (outside, word.reset) else (insert, word.push c)
  | pattern, word =>
    if c = '.' then
      (if word.eqIgnoreCase RegexName.pattern then replace else outside, word.reset)
    else (pattern, word.push c)
  | replace, word => if c = '.' then (outside, word.reset) else (replace, word.push c)

/-- The kind of a header whose name is closed here. -/
def kind : Search → Word → Kind
  | outside, _ | dot, _ => .regexCommandList
  | insert, word => if word.eqIgnoreCase insertDeclarations then .regexInsertDeclarations else .regexCommandList
  | pattern, word => if word.eqIgnoreCase RegexName.pattern then .regexPattern else .regexCommandList
  | replace, word => if word.eqIgnoreCase RegexName.replace then .regexPatternReplace else .regexCommandList

end Search

/-- Tells the kind of the header, with the word that is there at the start. -/
def collector (word : Word) : Reader (Search × Word) (Kind × Word) where
  start := (.outside, word.reset)
  step s c := if Subject.isClosing c then .stop ⟨(s.1.kind s.2, s.2), true⟩ else .go .take (s.1.next c s.2)
  atEnd s := ⟨(.regexCommandList, s.2), true⟩

end Header.RegexName

namespace Line

/-- Where the collector stands in the line. -/
inductive Place where
  | start
  /-- Behind a `[` that comes first in the line, and blanks. -/
  | bracket
  /-- In a name, of which at most `window` letters are collected. -/
  | name (window : Nat)
  | content
  deriving DecidableEq, Repr

/-- Content goes up to the line end and leaves the word alone. -/
def collectContent (word : Word) (c : Char) : Step (Place × Word) (Kind × Word) :=
  if isLineEnd c then .stop ⟨(.externalLine, word), true⟩ else .go .take (.content, word)

/-- The word is emptied in front of the first letter of a name and behind the last one. -/
def collectStep (mode : MatchMode) : Place → Word → Char → Step (Place × Word) (Kind × Word)
  | .start, word, c =>
    if isBlank c then .go .skip (.start, word)
    else if c = ';' then .stop ⟨(.externalLine, word), true⟩
    else if c = '[' then .go .markTake (.bracket, word)
    else collectContent word c
  | .bracket, word, c =>
    if isBlank c then .go .take (.bracket, word)
    else if Probe.window mode c = 0 then collectContent word c
    else .go .take (.name (Probe.window mode c), word.reset.push c)
  | .name window, word, c =>
    if c.isAlpha && word.length < window then .go .take (.name window, word.push c)
    else if (Section.ofWord? mode word).isSome then .stop ⟨(.headerStart, word.reset), false⟩
    else collectContent word.reset c
  | .content, word, c => collectContent word c

/-- A text that ends in a name may still name a section. -/
def collectAtEnd (mode : MatchMode) : Place → Word → Ending (Kind × Word)
  | .name _, word =>
    if (Section.ofWord? mode word).isSome then ⟨(.headerStart, word.reset), false⟩
    else ⟨(.externalLine, word.reset), true⟩
  | _, word => ⟨(.externalLine, word), true⟩

/-- Tells the kind of the line, with the word that is there at the start. -/
def collector (mode : MatchMode) (word : Word) : Reader (Place × Word) (Kind × Word) where
  start := (.start, word)
  step s c := collectStep mode s.1 s.2 c
  atEnd s := collectAtEnd mode s.1 s.2

end Line

end IniScan
