import IniScan.Reader
import IniScan.Text.Basic

/-!
# A cursor over a text

The cursor parts the text at the read position: what has been read, with the last character first, and what has not.
It also notes where the pending token starts and where it was last marked to end. Offsets count bytes of UTF-8.

Only the moves `skip` and `mark` set those notes. Whatever else moves the read position leaves them as they are, so
they may be stale until the next token is begun.

* `source_follow`, `source_bump?`, `source_bumpIgnoreCase?`, `source_eatWhile`: the text stays the same wherever
  the read position goes.
* `pos_add_unread`: the read position and what is unread make up the size of the text.
-/
namespace IniScan

/-- A place in a text, and the notes on the pending token. -/
structure Cursor where
  /-- The text in front of the read position, reversed. -/
  passed : List Char
  unread : List Char
  /-- The read position. -/
  pos : Nat
  /-- Where the pending token starts. -/
  start : Nat
  /-- Where the pending token ends, if that has been marked. -/
  stop : Option Nat
  pos_eq : pos = Text.byteSize passed
  deriving DecidableEq, Repr

namespace Cursor

/-- At the start of a text. -/
def ofText (s : List Char) : Cursor := ⟨[], s, 0, 0, none, rfl⟩

/-- The whole text. -/
def source (c : Cursor) : List Char := c.passed.reverse ++ c.unread

theorem pos_add_unread (c : Cursor) : c.pos + Text.byteSize c.unread = Text.byteSize c.source := by
  simp [source, c.pos_eq]

def isAtEnd (c : Cursor) : Bool := c.unread.isEmpty

/-- The next character, NUL at the end of the text. A text may also hold NUL, so `isAtEnd` tells the end. -/
def lookahead (c : Cursor) : Char := c.unread.headD '\x00'

/-! ## Moves -/

/-- Past the next `n` characters, or all if there are fewer. -/
def pass (c : Cursor) (n : Nat) : Cursor where
  passed := (c.unread.take n).reverse ++ c.passed
  unread := c.unread.drop n
  pos := c.pos + Text.byteSize (c.unread.take n)
  start := c.start
  stop := c.stop
  pos_eq := by simp [c.pos_eq, Nat.add_comm]

@[simp] theorem source_pass (c : Cursor) (n : Nat) : (c.pass n).source = c.source := by
  simp [source, pass]

def go (c : Cursor) : Move → Cursor
  | .take => c.pass 1
  | .skip => { c.pass 1 with start := (c.pass 1).pos }
  | .mark => { c with stop := some c.pos }

/-- The moves in order. -/
def follow (c : Cursor) (moves : List Move) : Cursor := moves.foldl go c

@[simp] theorem source_go (c : Cursor) (m : Move) : (c.go m).source = c.source := by
  cases m
  · exact c.source_pass 1
  · exact c.source_pass 1
  · rfl

@[simp] theorem source_follow (c : Cursor) (moves : List Move) : (c.follow moves).source = c.source := by
  induction moves generalizing c with
  | nil => rfl
  | cons m ms ih => exact (ih (c.go m)).trans (c.source_go m)

/-! ## Reading the grammar's own text -/

/-- Past the text `s`, if it comes next. -/
def bump? (c : Cursor) (s : List Char) : Option Cursor :=
  if s.isPrefixOf c.unread then some (c.pass s.length) else none

/-- Past as many bytes as `s` has, if they are `s` up to the case of ASCII letters. -/
def bumpIgnoreCase? (c : Cursor) (s : List Char) : Option Cursor :=
  match Text.splitAt? (Text.byteSize s) c.unread with
  | some (head, _) => if Text.eqIgnoreCase head s then some (c.pass head.length) else none
  | none => none

/-- Past the characters with the property. -/
def eatWhile (c : Cursor) (p : Char → Bool) : Cursor := c.pass (c.unread.takeWhile p).length

/-- Past one character after another while a predicate that keeps a state says yes, and the state it comes to. It is asked
once about each character, up to the one that it refuses. -/
def eatWith {σ : Type} (c : Cursor) (p : σ → Char → Bool × σ) (s : σ) : Cursor × σ :=
  if c.isAtEnd then (c, s)
  else if (p s c.lookahead).1 then (c.pass 1).eatWith p (p s c.lookahead).2
  else (c, (p s c.lookahead).2)
termination_by c.unread.length
decreasing_by
  have hunread : 0 < c.unread.length := List.length_pos_iff.2 (by simpa [isAtEnd] using ‹¬ c.isAtEnd = true›)
  show (c.unread.drop 1).length < c.unread.length
  rw [List.length_drop]
  exact Nat.sub_lt hunread Nat.one_pos

theorem source_bump? {c d : Cursor} {s : List Char} (h : c.bump? s = some d) : d.source = c.source := by
  unfold bump? at h
  split at h <;> cases h
  exact source_pass c _

theorem source_bumpIgnoreCase? {c d : Cursor} {s : List Char} (h : c.bumpIgnoreCase? s = some d) :
    d.source = c.source := by
  unfold bumpIgnoreCase? at h
  split at h
  · split at h <;> cases h
    exact source_pass c _
  · cases h

@[simp] theorem source_eatWhile (c : Cursor) (p : Char → Bool) : (c.eatWhile p).source = c.source := source_pass c _

/-! ## Tokens -/

/-- The cursor with nothing noted but that a token starts here. -/
def begin (c : Cursor) : Cursor := { c with start := c.pos, stop := none }

/-- Where the pending token ends: at the last mark or else at the read position, and never before its start. -/
def tokenEnd (c : Cursor) : Nat := max (c.stop.getD c.pos) c.start

/-- The cursor moved forward to an offset, or as it is if no character that is unread ends there. -/
def advanceTo (c : Cursor) (offset : Nat) : Cursor :=
  match Text.splitAt? (offset - c.pos) c.unread with
  | some (head, _) => c.pass head.length
  | none => c

@[simp] theorem source_advanceTo (c : Cursor) (offset : Nat) : (c.advanceTo offset).source = c.source := by
  unfold advanceTo
  split
  · exact source_pass c _
  · rfl

/-- The read position of `c` with the notes of `d`. -/
def noting (c d : Cursor) : Cursor := { c with start := d.start, stop := d.stop }

@[simp] theorem source_noting (c d : Cursor) : (c.noting d).source = c.source := rfl

def describe (c : Cursor) : String :=
  let stop := match c.stop with
    | some n => "Some(" ++ toString n ++ ")"
    | none => "None"
  "StrLexer \x7b pos: " ++ toString c.pos ++ ", token_start: " ++ toString c.start ++ ", token_end: " ++ stop ++ " \x7d"

end Cursor

end IniScan
