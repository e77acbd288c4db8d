import IniScan.Session
import IniScan.Text.Utf8

/-!
# Going on by slices

A cursor goes on by characters. A host that holds the text in bytes goes on by slices of it: past text of its own by a
slice of what is unread, to the end of a token by a slice of the whole text. A slice that would begin inside a character or
behind the end aborts. What is done here is none if it aborts.

* `Cursor.passBytes?`, `Cursor.seek?`: the two slices.
* `Cursor.bumpBytes?`, `Cursor.bumpBytesIgnoreCase?`, `Host.nextTokenBytes?`: what is done by them.
* `Session.stepBytes?`: a step of a session.
-/
namespace IniScan

namespace Text.Utf8

/-- The byte of a capital becomes that of the small letter. Every byte of a longer character is above those. -/
def lowerByte (b : UInt8) : UInt8 := if 0x41 ≤ b ∧ b ≤ 0x5A then b + 0x20 else b

/-- The bytes are equal up to the case of ASCII letters. -/
def eqIgnoreCase (a b : List UInt8) : Bool := a.map lowerByte = b.map lowerByte

end Text.Utf8

open Text

namespace Cursor

/-- Past the next `n` bytes. -/
def passBytes? (c : Cursor) (n : Nat) : Option Cursor :=
  (splitAt? n c.unread).map fun p => c.pass p.1.length

/-- The cursor at an offset of the text, wherever it stands, with its notes. -/
def seek? (c : Cursor) (offset : Nat) : Option Cursor :=
  (splitAt? offset c.source).map fun p =>
    { passed := p.1.reverse, unread := p.2, pos := byteSize p.1, start := c.start, stop := c.stop,
      pos_eq := (byteSize_reverse p.1).symm }

/-- Past the text `s`, if its bytes come next. -/
def bumpBytes? (c : Cursor) (s : List Char) : Option (Option Cursor) :=
  if (Utf8.encode s).isPrefixOf (Utf8.encode c.unread) then (c.passBytes? (byteSize s)).map some else some none

/-- Past as many bytes as `s` has, if there is a slice of them and they are those of `s` up to the case of ASCII
letters. -/
def bumpBytesIgnoreCase? (c : Cursor) (s : List Char) : Option (Option Cursor) :=
  match splitAt? (byteSize s) c.unread with
  | some (head, _) =>
    if Utf8.eqIgnoreCase (Utf8.encode head) (Utf8.encode s) then (c.passBytes? (byteSize s)).map some else some none
  | none => some none

end Cursor

/-- The token at the cursor. One that is found takes the cursor from where the scanner left it to the token's end, and
without one it goes back to where it stood. -/
def Host.nextTokenBytes? (h : Host) (offered : KindSet) : Option (Option Token × Host) :=
  let (kind, after) := scan { h with cursor := h.cursor.begin } offered
  match kind with
  | some k =>
    let stop := after.cursor.tokenEnd
    (after.cursor.seek? stop).map fun c =>
      (some ⟨k, UInt32.ofNat after.cursor.start, UInt32.ofNat stop⟩, { after with cursor := c })
  | none => some (none, { after with cursor := h.cursor.noting after.cursor })

/-- One step. Only a call for a token and the text of the grammar need slices. -/
def Session.stepBytes? (s : Session) : Step → Option (Answer × Session)
  | .nextToken offered => (s.host.nextTokenBytes? offered).map fun p => (.token p.1, { s with host := p.2 })
  | .bump t => (s.host.cursor.bumpBytes? t).map s.moveTo
  | .bumpIgnoreCase t => (s.host.cursor.bumpBytesIgnoreCase? t).map s.moveTo
  | x => some (s.step x)

end IniScan
