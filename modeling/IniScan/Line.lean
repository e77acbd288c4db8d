import IniScan.Header.Probe
import IniScan.Kind
import IniScan.Reader

/-!
# Lines of content

Blanks at the start of a line are skipped. A comment, which begins with `;`, and a line without text give content of no
width, so that they do not end the section that they stand in. A `[` whose probe finds a section name gives the
zero-width start of a header in front of it. Anything else is content up to the end of the line, and what a failed
probe has read is part of it.
-/
namespace IniScan.Line

open Text Header

/-- Where the reader stands in the line. -/
inductive State where
  | start
  /-- Behind a `[` that comes first in the line. -/
  | header (p : Probe)
  | content
  deriving DecidableEq, Repr

/-- Content goes up to the line end and is marked there. -/
def contentStep (c : Char) : Step State Kind :=
  if isLineEnd c then .stop ⟨.externalLine, true⟩ else .go .take .content

/-- A `[` is marked before it is taken, because a header starts in front of it. -/
def step (mode : MatchMode) : State → Char → Step State Kind
  | .start, c =>
    if isBlank c then .go .skip .start
    else if c = ';' then .stop ⟨.externalLine, true⟩
    else if c = '[' then .go .markTake (.header .blanks)
    else contentStep c
  | .header p, c =>
    match p.next mode c with
    | some q => .go .take (.header q)
    | none => if p.verdict mode then .stop ⟨.headerStart, false⟩ else contentStep c
  | .content, c => contentStep c

/-- A text that ends in the probe may still name a section. -/
def atEnd (mode : MatchMode) : State → Ending Kind
  | .header p => if p.verdict mode then ⟨.headerStart, false⟩ else ⟨.externalLine, true⟩
  | _ => ⟨.externalLine, true⟩

/-- Tells the kind of the line. -/
def reader (mode : MatchMode) : Reader State Kind where
  start := .start
  step := step mode
  atEnd := atEnd mode

end IniScan.Line
