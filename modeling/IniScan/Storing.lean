import IniScan.Scanner

/-!
# Writing a word character by character

`Word.write?` tells what a buffer holds behind a word. The writing itself goes by the size that the word notes: it cuts this
many bytes off the buffer, and then each character takes its bytes from what is left of them. A character that finds
too few left aborts the writing, and so do bytes that no character takes. Both mean that the word is not of the size that
it notes.

* `Word.attempt`, `Scanner.store?`: `write?` and `store` by this writing.
-/
namespace IniScan

namespace Word

/-- The bytes of the text, put into the room from its start on, and the room behind them. None if a character finds too
little room. -/
def fill : List Char → List UInt8 → Option (List UInt8 × List UInt8)
  | [], room => some ([], room)
  | c :: cs, room =>
    if c.utf8Size ≤ room.length then
      (fill cs (room.drop c.utf8Size)).map fun p => (String.utf8EncodeChar c ++ p.1, p.2)
    else none

/-- What an attempt to write a word comes to. -/
inductive Attempt where
  /-- The buffer has fewer bytes than the word notes. -/
  | refused
  | written (buffer : List UInt8)
  /-- The characters do not take the bytes that the word notes. -/
  | aborted
  deriving DecidableEq, Repr

/-- Cuts the bytes of the word off the buffer, puts the size into the first and the text into the others. -/
def attempt (w : Word) (buffer : List UInt8) : Attempt :=
  if w.storedSize ≤ buffer.length then
    match buffer.take w.storedSize with
    | _ :: room =>
      match fill w.chars room with
      | some (text, []) => .written (UInt8.ofNat w.size :: text ++ buffer.drop w.storedSize)
      | _ => .aborted
    | [] => .refused
  else .refused

end Word

/-- What storing comes to, or none if the writing aborts. -/
def Scanner.store? (s : Scanner) (buffer : List UInt8) : Option (Nat × List UInt8) :=
  let room := min s.config.budget.toNat buffer.length
  match s.word.attempt (buffer.take room) with
  | .written after => some (s.word.storedSize, after ++ buffer.drop room)
  | .refused => some (0, buffer)
  | .aborted => none

end IniScan
