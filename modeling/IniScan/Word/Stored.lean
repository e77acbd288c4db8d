import IniScan.Word.Basic
import IniScan.Text.Utf8

/-!
# The stored form of a word

A word is stored as one byte with its size and then its UTF-8 bytes. A host may also keep nothing, and no bytes
stand for the empty word. Reading checks the size before the text.

* `length_bytes`: a word whose size is right takes `storedSize` bytes.
* `length_write`: writing leaves the size of the buffer as it was.
-/
namespace IniScan

/-- Why bytes are not a stored word. -/
inductive StateError where
  | lengthMismatch (expected actual : Nat)
  | invalidUtf8 (cause : Text.Utf8.Malformed)
  deriving DecidableEq, Repr

def StateError.message : StateError → String
  | .lengthMismatch expected actual =>
    "serialized word has length " ++ toString expected ++ ", but " ++ toString actual ++
      " bytes follow the length byte"
  | .invalidUtf8 cause => "serialized word is not valid UTF-8: " ++ cause.message

namespace Word

/-- The number of bytes stored. -/
def storedSize (w : Word) : Nat := 1 + w.size

/-- The bytes stored: the size, then the text. -/
def bytes (w : Word) : List UInt8 := UInt8.ofNat w.size :: Text.Utf8.encode w.chars

theorem length_bytes {w : Word} (h : w.size = Text.byteSize w.chars) : w.bytes.length = w.storedSize := by
  simp [bytes, storedSize, Text.Utf8.length_encode, h, Nat.add_comm]

/-- The buffer with the word at its start, or none if it is too small. -/
def write? (w : Word) (buffer : List UInt8) : Option (List UInt8) :=
  if w.storedSize ≤ buffer.length then some (w.bytes ++ buffer.drop w.storedSize) else none

theorem length_write {w : Word} (h : w.size = Text.byteSize w.chars) {buffer after : List UInt8}
    (hw : w.write? buffer = some after) : after.length = buffer.length := by
  unfold write? at hw
  split at hw
  · cases hw; simp [length_bytes h]; omega
  · cases hw

/-- The word that the bytes store. -/
def ofBytes : List UInt8 → Except StateError Word
  | [] => .ok empty
  | size :: payload =>
    if payload.length = size.toNat then
      match Text.Utf8.decode payload with
      | .ok s => .ok (ofText s)
      | .error cause => .error (.invalidUtf8 cause)
    else .error (.lengthMismatch size.toNat payload.length)

end Word

end IniScan
