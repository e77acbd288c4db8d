import IniScan.Boundary
import IniScan.Collector
import IniScan.Config
import IniScan.Family
import IniScan.Header.RegexName
import IniScan.Header.Subject
import IniScan.Line
import IniScan.Path
import IniScan.Word.Stored

/-!
# The scanner

A scanner is asked for one token at a time, with the set of kinds that the grammar accepts there. The family that wins
among them reads the text, and its outcome counts if its kind is offered. While the grammar recovers from an error the
error sentinel is offered too, and then nothing is read.

Between calls a scanner keeps no more than its configuration and a word, which a host can store and restore. A call finds
the word as it is and may collect in it. The word is emptied behind every call but those during recovery, which
leave it alone.

* `read_of_recovering`, `read_of_no_family`: when nothing is read.
* `call_eq`: what a call leaves of the scanner does not depend on the text.
-/
namespace IniScan

/-- What the text alone tells about a token of the family. -/
def Family.read (mode : MatchMode) (offered : KindSet) (unread : List Char) : Family → Reading (Option Kind)
  | boundary => (Boundary.reader.read unread).map fun found => if found then some .lineBoundary else none
  | path => Path.read offered unread
  | subject => (Header.Subject.reader.read unread).map (Header.Subject.kind? offered)
  | regexName => (Header.RegexName.reader.read unread).map offered.find?
  | line => ((Line.reader mode).read unread).map offered.find?

/-- Reads for a token of the family with the word of the scanner, which is left as the second part of the outcome. -/
def Family.collect (mode : MatchMode) (offered : KindSet) (word : Word) (unread : List Char) :
    Family → Reading (Option Kind × Word)
  | regexName => ((Header.RegexName.collector word).read unread).map fun p => (offered.find? p.1, p.2)
  | line => ((Line.collector mode word).read unread).map fun p => (offered.find? p.1, p.2)
  | f => (f.read mode offered unread).map fun kind => (kind, word)

/-- The configuration and the word that outlives a call. -/
structure Scanner where
  config : Config
  word : Word
  deriving DecidableEq, Repr

namespace Scanner

/-- A scanner that has read nothing. -/
def ofConfig (c : Config) : Scanner := ⟨c, Word.empty⟩

instance : Inhabited Scanner := ⟨ofConfig default⟩

/-! ## Scanning -/

/-- The grammar is recovering from an error. -/
def recovering (offered : KindSet) : Bool := Kind.errorSentinel ∈ offered

/-- One call: the kind of the token, if there is one, with the calls on the host, and the scanner behind it. -/
def call (s : Scanner) (offered : KindSet) (unread : List Char) : Reading (Option Kind) × Scanner :=
  if recovering offered then (⟨none, []⟩, s)
  else
    match Family.of? offered with
    | some f =>
      let reading := f.collect s.config.mode offered s.word unread
      (reading.map Prod.fst, { s with word := reading.outcome.2.reset })
    | none => (⟨none, []⟩, { s with word := s.word.reset })

/-- What the scanner makes of the unread text: the kind of the token, if there is one, and the calls on the host. -/
def read (s : Scanner) (offered : KindSet) (unread : List Char) : Reading (Option Kind) :=
  (s.call offered unread).1

/-- The scanner with its word emptied, unless the grammar is recovering. -/
def settle (s : Scanner) (offered : KindSet) : Scanner :=
  if recovering offered then s else { s with word := Word.empty }

theorem call_eq (s : Scanner) (offered : KindSet) (unread : List Char) :
    s.call offered unread = (s.read offered unread, s.settle offered) := by
  unfold read call settle
  split
  · rfl
  · split <;> rfl

theorem read_of_recovering (s : Scanner) {offered : KindSet} (h : Kind.errorSentinel ∈ offered)
    (unread : List Char) : s.read offered unread = ⟨none, []⟩ := by
  simp [read, call, recovering, h]

theorem read_of_no_family (s : Scanner) {offered : KindSet} (h : Family.of? offered = none)
    (unread : List Char) : s.read offered unread = ⟨none, []⟩ := by
  simp only [read, call, h]; split <;> rfl

/-! ## Storing and restoring -/

/-- Writes the state to the start of the buffer. Returns the number of bytes written and the buffer, which is
unchanged and the number zero if the state takes more bytes than the buffer has or the budget allows. -/
def store (s : Scanner) (buffer : List UInt8) : Nat × List UInt8 :=
  let room := min s.config.budget.toNat buffer.length
  match s.word.write? (buffer.take room) with
  | some written => (s.word.storedSize, written ++ buffer.drop room)
  | none => (0, buffer)

/-- The scanner with the state that the bytes store. -/
def restore (s : Scanner) (bytes : List UInt8) : Except StateError Scanner :=
  (Word.ofBytes bytes).map fun word => { s with word := word }

/-- A host gave bytes back that it had not been given. -/
structure Breach where
  cause : StateError
  deriving DecidableEq, Repr

def Breach.message (b : Breach) : String := "corrupt external scanner state: " ++ b.cause.message

/-- `restore` for a host that vouches for the bytes. -/
def reinstate (s : Scanner) (bytes : List UInt8) : Except Breach Scanner := (s.restore bytes).mapError Breach.mk

def describe (s : Scanner) : String :=
  "Scanner \x7b config: " ++ s.config.describe ++ ", word: " ++ s.word.describe ++ " \x7d"

end Scanner

end IniScan
