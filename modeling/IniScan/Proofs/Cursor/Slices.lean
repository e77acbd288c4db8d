import IniScan.Slicing
import IniScan.Proofs.Cursor.Literal
import IniScan.Proofs.Text.CaseBytes

/-!
# Slices that do not abort

The read position parts the text between two characters, and a text that comes next ends between two characters. So the
slices of a host that goes by bytes are there, and take it to where a cursor goes by characters.

* `splitAt?_front`: the text parted at the read position.
* `seek?_pos`: the place of any cursor in the text is found.
* `bumpBytes?_eq`, `bumpBytesIgnoreCase?_eq`: text of the grammar's own.
-/
namespace IniScan.Cursor

open Text

/-- The text in front of the read position. -/
def front (c : Cursor) : List Char := c.passed.reverse

theorem byteSize_front (c : Cursor) : byteSize c.front = c.pos := by rw [front, byteSize_reverse, c.pos_eq]

theorem splitAt?_front (c : Cursor) : splitAt? c.pos c.source = some (c.front, c.unread) := by
  rw [← c.byteSize_front]
  exact splitAt?_byteSize _ _

/-! ## The two slices -/

/-- The place of `d` is found in its text by any cursor `c`, which keeps its notes. -/
theorem seek?_pos {c d : Cursor} (h : c.source = d.source) : c.seek? d.pos = some (d.noting c) := by
  obtain ⟨passed, unread, pos, start, stop, hpos⟩ := d
  subst hpos
  have hcut := splitAt?_front ⟨passed, unread, byteSize passed, start, stop, rfl⟩
  rw [seek?, h, hcut]
  simp [front, noting]

theorem passBytes?_of_append {c : Cursor} {s rest : List Char} (h : c.unread = s ++ rest) :
    c.passBytes? (byteSize s) = some (c.pass s.length) := by
  rw [passBytes?, h, splitAt?_byteSize]
  rfl

/-! ## The grammar's own text -/

theorem bumpBytes?_eq (c : Cursor) (s : List Char) : c.bumpBytes? s = some (c.bump? s) := by
  have hiff : (Utf8.encode s).isPrefixOf (Utf8.encode c.unread) = s.isPrefixOf c.unread := by
    rw [Bool.eq_iff_iff, List.isPrefixOf_iff_prefix, List.isPrefixOf_iff_prefix]
    exact Utf8.isPrefix_encode_iff
  unfold bumpBytes? bump?
  rw [hiff]
  split
  · rename_i h
    obtain ⟨rest, hrest⟩ := List.isPrefixOf_iff_prefix.1 h
    rw [passBytes?_of_append hrest.symm]
    rfl
  · rfl

theorem bumpBytesIgnoreCase?_eq (c : Cursor) (s : List Char) :
    c.bumpBytesIgnoreCase? s = some (c.bumpIgnoreCase? s) := by
  cases hcut : splitAt? (byteSize s) c.unread with
  | none => simp only [bumpBytesIgnoreCase?, bumpIgnoreCase?, hcut]
  | some p =>
    have hpass : c.passBytes? (byteSize s) = some (c.pass p.1.length) := by rw [passBytes?, hcut, Option.map_some]
    simp only [bumpBytesIgnoreCase?, bumpIgnoreCase?, hcut, Utf8.eqIgnoreCase_encode, hpass]
    split <;> rfl

end IniScan.Cursor
