import IniScan.Ledger
import IniScan.Scanner

/-!
# Loops that peek and call

Here the five readings are loops on a ledger. A loop looks at the next character as often as it likes, calls on the host in
between, and ends where it likes. Nothing keeps it from a call at the end of the text, or from one too many, but what it
looked at before.

The loop for a namespace path looks twice behind a dollar sign, where the reader goes on and remembers it. The loop for a line
goes on to the probe for a header in the middle of a turn, and to the content of the line behind it.
-/
namespace IniScan

open Text

namespace Boundary

/-- Skips blanks and line ends. Tells whether there was a line end, or is the end of the text. -/
def loop (l : Ledger) (ended : Bool) : Bool × Ledger :=
  match _ : l.peek with
  | none => (true, l)
  | some c =>
    if isLineEnd c then loop (l.call .skip) true
    else if isBlank c then loop (l.call .skip) ended
    else (ended, l)
termination_by l.cursor.unread.length
decreasing_by all_goals exact l.length_unread_call_lt ‹_› (by decide)

def scan (l : Ledger) : Option Kind × Ledger :=
  let (ended, l) := loop l false
  (if ended then some .lineBoundary else none, l.call .mark)

end Boundary

namespace Path

def scanSeparator (kind : Kind) (l : Ledger) : Option Kind × Ledger :=
  if l.peek = some separator then (some kind, l.call .take) else (none, l)

def scanContent (l : Ledger) (separated : Bool) : Option Kind × Ledger :=
  match _ : l.peek with
  | none => (if separated then some .namespaceContent else none, l)
  | some c =>
    if c = '$' then
      if (l.call .take).peek = some separator then (none, l.call .take) else scanContent (l.call .take) separated
    else if c = separator then scanContent ((l.call .mark).call .take) true
    else if isTerminator c then (some .namespaceContent, if separated then l else l.call .mark)
    else scanContent (l.call .take) separated
termination_by l.cursor.unread.length
decreasing_by
  · exact l.length_unread_call_lt ‹_› (by decide)
  · exact (l.call .mark).length_unread_call_lt ‹l.peek = some c› (by decide)
  · exact l.length_unread_call_lt ‹_› (by decide)

def scan (offered : KindSet) (l : Ledger) : Option Kind × Ledger :=
  if Kind.namespaceStart ∈ offered then scanSeparator .namespaceStart l
  else if Kind.namespaceContent ∈ offered then scanContent l false
  else scanSeparator .namespaceEnd l

end Path

namespace Header.Subject

/-- Goes past the subject. Tells whether it holds text. -/
def loop (l : Ledger) (text : Bool) : Bool × Ledger :=
  match _ : l.peek with
  | none => (text, l)
  | some c =>
    if isClosing c then (text, l)
    else if isBlank c then
      if text then loop (l.call .take) text else loop (l.call .skip) text
    else loop ((l.call .take).call .mark) true
termination_by l.cursor.unread.length
decreasing_by
  · exact l.length_unread_call_lt ‹_› (by decide)
  · exact l.length_unread_call_lt ‹_› (by decide)
  · exact l.length_unread_call_lt (m := .take) ‹_› (by decide)

def scan (offered : KindSet) (l : Ledger) : Option Kind × Ledger :=
  let (text, l) := loop l false
  (kind? offered text, if text then l else l.call .mark)

end Header.Subject

namespace Header.RegexName

/-- Goes past the name, with the search in it and the word for that. -/
def loop (l : Ledger) (search : Search) (word : Word) : (Kind × Word) × Ledger :=
  match _ : l.peek with
  | none => ((.regexCommandList, word), l)
  | some c =>
    if Subject.isClosing c then ((search.kind word, word), l)
    else loop (l.call .take) (search.next c word).1 (search.next c word).2
termination_by l.cursor.unread.length
decreasing_by exact l.length_unread_call_lt ‹_› (by decide)

def scan (offered : KindSet) (word : Word) (l : Ledger) : (Option Kind × Word) × Ledger :=
  let ((kind, word), l) := loop l .outside word.reset
  ((offered.find? kind, word), l.call .mark)

end Header.RegexName

namespace Line

open Header

/-- Takes blanks. -/
def blanks (l : Ledger) : Ledger :=
  match _ : l.peek with
  | none => l
  | some c => if isBlank c then blanks (l.call .take) else l
termination_by l.cursor.unread.length
decreasing_by exact l.length_unread_call_lt ‹_› (by decide)

/-- Collects letters until there are `window` of them in the word. -/
def letters (l : Ledger) (window : Nat) (word : Word) : Word × Ledger :=
  if word.length < window then
    match _ : l.peek with
    | none => (word, l)
    | some c => if c.isAlpha then letters (l.call .take) window (word.push c) else (word, l)
  else (word, l)
termination_by l.cursor.unread.length
decreasing_by exact l.length_unread_call_lt ‹_› (by decide)

/-- Tells whether a section name comes next, behind blanks. -/
def probe (mode : MatchMode) (l : Ledger) (word : Word) : (Bool × Word) × Ledger :=
  let l := blanks l
  match l.peek with
  | none => ((false, word), l)
  | some c =>
    if Probe.window mode c = 0 then ((false, word), l)
    else
      let (word, l) := letters l (Probe.window mode c) word.reset
      (((Section.ofWord? mode word).isSome, word.reset), l)

/-- Goes past the line, of which `text` tells whether some has been taken. -/
def loop (mode : MatchMode) (offered : KindSet) (l : Ledger) (text : Bool) (word : Word) :
    (Option Kind × Word) × Ledger :=
  match _ : l.peek with
  | none => ((offered.find? .externalLine, word), l.call .mark)
  | some c =>
    if isLineEnd c then ((offered.find? .externalLine, word), l.call .mark)
    else if text then loop mode offered (l.call .take) true word
    else if isBlank c then loop mode offered (l.call .skip) false word
    else if c = ';' then ((offered.find? .externalLine, word), l.call .mark)
    else if c = '[' then
      let ((found, word), l) := probe mode ((l.call .mark).call .take) word
      if found then ((offered.find? .headerStart, word), l) else loop mode offered l true word
    else loop mode offered (l.call .take) true word
termination_by ((!text).toNat, l.cursor.unread.length)
decreasing_by
  · obtain rfl : text = true := ‹_›
    exact .right _ (l.length_unread_call_lt ‹_› (by decide))
  · obtain rfl : text = false := Bool.eq_false_iff.2 ‹_›
    exact .right _ (l.length_unread_call_lt ‹_› (by decide))
  · exact .left _ _ (by rw [Bool.eq_false_iff.2 ‹¬ text = true›]; exact Nat.zero_lt_one)
  · exact .left _ _ (by rw [Bool.eq_false_iff.2 ‹¬ text = true›]; exact Nat.zero_lt_one)

end Line

/-- One call: the kind of the token, if there is one, and the scanner behind it. -/
def Scanner.scan (s : Scanner) (offered : KindSet) (l : Ledger) : (Option Kind × Scanner) × Ledger :=
  if recovering offered then ((none, s), l)
  else
    let ((kind, word), l) : (Option Kind × Word) × Ledger :=
      if Kind.lineBoundary ∈ offered then
        let (kind, l) := Boundary.scan l
        ((kind, s.word), l)
      else if offered.meets KindSet.path then
        let (kind, l) := Path.scan offered l
        ((kind, s.word), l)
      else if offered.meets KindSet.suffixed then
        let (kind, l) := Header.Subject.scan offered l
        ((kind, s.word), l)
      else if offered.meets KindSet.regex then Header.RegexName.scan offered s.word l
      else if offered.meets KindSet.line then Line.loop s.config.mode offered l false s.word
      else ((none, s.word), l)
    ((kind, { s with word := word.reset }), l)

end IniScan
