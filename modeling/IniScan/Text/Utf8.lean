import IniScan.Text.Basic

/-!
# UTF-8 in bytes

`encode` writes a text, `decode` reads bytes or says why they are no text. The reader goes byte by byte. Its
state is the character that has been opened and not yet finished, with the range that the next byte must lie in.
The ranges are those of the table of well-formed sequences: after `E0` the second byte starts at `A0`, after
`ED` it ends at `9F`, after `F0` it starts at `90`, after `F4` it ends at `8F`, and `C0`, `C1` and `F5` to `FF`
open nothing. So overlong forms, surrogates and numbers past `10FFFF` are refused at the earliest byte.

* `length_encode`: a text takes `byteSize` bytes.
-/
namespace IniScan.Text.Utf8

/-- The bytes of the text, one to four for each character. -/
def encode (s : List Char) : List UInt8 := s.flatMap String.utf8EncodeChar

@[simp] theorem encode_nil : encode [] = [] := rfl

@[simp] theorem encode_cons (c : Char) (cs : List Char) :
    encode (c :: cs) = String.utf8EncodeChar c ++ encode cs := rfl

@[simp] theorem encode_append (s t : List Char) : encode (s ++ t) = encode s ++ encode t :=
  List.flatMap_append

theorem length_encode (s : List Char) : (encode s).length = byteSize s := by
  induction s with
  | nil => rfl
  | cons c cs ih => simp [ih, String.length_utf8EncodeChar]

/-- Why bytes are no text. `valid` counts the bytes of the longest well-formed text at their start. -/
inductive Malformed where
  /-- The bytes end inside a character. -/
  | truncated (valid : Nat)
  /-- The next `width` bytes, one to three, open a character that the byte after them cannot go on with;
  or `width` is one and the byte opens nothing. -/
  | invalid (valid width : Nat)
  deriving DecidableEq, Repr

def Malformed.message : Malformed → String
  | .truncated valid => "incomplete utf-8 byte sequence from index " ++ toString valid
  | .invalid valid width =>
    "invalid utf-8 sequence of " ++ toString width ++ " bytes from index " ++ toString valid

/-! ## Reading -/

/-- A character of which `read` bytes, at least one, have been read. The next byte lies between `low` and
`high`, and `left` more follow it. -/
structure Opened where
  read : Nat
  left : Nat
  low : UInt8
  high : UInt8
  bits : Nat
  deriving DecidableEq, Repr

/-- The byte after which `o` goes on, if it is in range, gives its six low bits to the number. -/
def Opened.bitsWith (o : Opened) (b : UInt8) : Nat := o.bits * 64 + b.toNat % 64

/-- What a byte at the start of a character says. -/
inductive Lead where
  | whole (c : Char)
  | opens (o : Opened)
  | nothing

/-- The table of first bytes. -/
def lead (b : UInt8) : Lead :=
  if b < 0x80 then .whole (Char.ofNat b.toNat)
  else if b < 0xC2 then .nothing
  else if b < 0xE0 then .opens ⟨1, 0, 0x80, 0xBF, b.toNat % 32⟩
  else if b = 0xE0 then .opens ⟨1, 1, 0xA0, 0xBF, 0⟩
  else if b = 0xED then .opens ⟨1, 1, 0x80, 0x9F, 13⟩
  else if b < 0xF0 then .opens ⟨1, 1, 0x80, 0xBF, b.toNat % 16⟩
  else if b = 0xF0 then .opens ⟨1, 2, 0x90, 0xBF, 0⟩
  else if b < 0xF4 then .opens ⟨1, 2, 0x80, 0xBF, b.toNat % 8⟩
  else if b = 0xF4 then .opens ⟨1, 2, 0x80, 0x8F, 4⟩
  else .nothing

/-- Reads on after `valid` bytes of whole characters, with the character that is open, if one is. -/
def decodeFrom (valid : Nat) : Option Opened → List UInt8 → Except Malformed (List Char)
  | none, [] => .ok []
  | some _, [] => .error (.truncated valid)
  | none, b :: bs =>
    match lead b with
    | .whole c => (decodeFrom (valid + 1) none bs).map (c :: ·)
    | .opens o => decodeFrom valid (some o) bs
    | .nothing => .error (.invalid valid 1)
  | some o, b :: bs =>
    if o.low ≤ b ∧ b ≤ o.high then
      match o.left with
      | 0 => (decodeFrom (valid + o.read + 1) none bs).map (Char.ofNat (o.bitsWith b) :: ·)
      | left + 1 => decodeFrom valid (some ⟨o.read + 1, left, 0x80, 0xBF, o.bitsWith b⟩) bs
    else .error (.invalid valid o.read)

/-- The text that the bytes are the UTF-8 form of, or why there is none. -/
def decode (bytes : List UInt8) : Except Malformed (List Char) := decodeFrom 0 none bytes

end IniScan.Text.Utf8
