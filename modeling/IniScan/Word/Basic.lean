import IniScan.Text.Basic
import IniScan.Text.Quoted

/-!
# Words that are being collected

A word grows by one character at a time and never takes more than `capacity` bytes in UTF-8, so that one byte can
hold its size. A character that would not fit is dropped, which is remembered; a narrower one may still fit after it.

* `size_push_le`: no push takes a word past the capacity.
-/
namespace IniScan

/-- `size` is the UTF-8 size of `chars`, and `saturated` says that a character was dropped. -/
structure Word where
  chars : List Char
  size : Nat
  saturated : Bool
  deriving DecidableEq, Repr

namespace Word

/-- The most bytes that a word takes. -/
def capacity : Nat := 255

def empty : Word := ⟨[], 0, false⟩

@[simp] theorem size_empty : empty.size = 0 := rfl

instance : EmptyCollection Word := ⟨empty⟩

/-- The word with nothing in it, whatever was. -/
def reset (_ : Word) : Word := empty

/-- There is room for the character. -/
def fits (w : Word) (c : Char) : Bool := w.size + c.utf8Size ≤ capacity

/-- The word with the character behind it if there is room, and marked as saturated if not. -/
def push (w : Word) (c : Char) : Word :=
  if w.fits c then { w with chars := w.chars ++ [c], size := w.size + c.utf8Size }
  else { w with saturated := true }

theorem push_of_le {w : Word} {c : Char} (h : w.size + c.utf8Size ≤ capacity) :
    w.push c = { w with chars := w.chars ++ [c], size := w.size + c.utf8Size } := if_pos (decide_eq_true h)

theorem size_push_le {w : Word} (h : w.size ≤ capacity) (c : Char) : (w.push c).size ≤ capacity := by
  unfold push
  split
  · rename_i hf; simpa [fits] using hf
  · exact h

/-- The characters of the text pushed in order. -/
def pushAll (w : Word) (s : List Char) : Word := s.foldl push w

/-- What is left of the text when it is pushed on the empty word. -/
def ofText (s : List Char) : Word := empty.pushAll s

def length (w : Word) : Nat := w.chars.length

def isEmpty (w : Word) : Bool := w.chars.isEmpty

/-- The characters with ASCII letters in lower case. -/
def lower (w : Word) : List Char := Text.lower w.chars

/-- The word is `s` up to the case of ASCII letters. Two texts of one size whose characters agree pairwise as far
as both go have one length, so sizes and pairs decide it. -/
def eqIgnoreCase (w : Word) (s : List Char) : Bool :=
  w.size == Text.byteSize s && (w.chars.zip s).all fun p => p.1.toLower == p.2.toLower

def describe (w : Word) : String := "WordBuffer(" ++ Text.Quoted.quote w.chars ++ ")"

end Word

end IniScan
