import IniScan.Proofs.Cursor.Slices

/-!
# Offsets that stay between characters

A cursor goes on by characters and notes places that it has been at. So its read position and its notes are offsets of the
text, none inside a character, and stay so, even when the notes are stale or out of order.

* `Cursor.Within`: the invariant, with `Within.pos` for the read position.
* `ahead_pass`, `ahead_follow`, `ahead_advanceTo`: wherever a cursor goes on to, it lies ahead and keeps the invariant.
-/
namespace IniScan

namespace Text

/-- A character of the text starts at the offset, or the text ends there. -/
def IsOffset (s : List Char) (n : Nat) : Prop := ∃ front rest, s = front ++ rest ∧ byteSize front = n

theorem isOffset_zero (s : List Char) : IsOffset s 0 := ⟨[], s, rfl, rfl⟩

theorem IsOffset.le {s : List Char} {n : Nat} (h : IsOffset s n) : n ≤ byteSize s := by
  obtain ⟨front, rest, rfl, rfl⟩ := h
  rw [byteSize_append]
  exact Nat.le_add_right _ _

end Text

open Text

namespace Cursor

/-- The cursor is one in the text, and what it notes are offsets of the text. -/
structure Within (source : List Char) (c : Cursor) : Prop where
  source_eq : c.source = source
  start : IsOffset source c.start
  stop : ∀ n ∈ c.stop, IsOffset source n

/-- From `c` the cursor has gone on to `d`, and is still one in the text. -/
structure Ahead (source : List Char) (c d : Cursor) : Prop where
  within : d.Within source
  pos_le : c.pos ≤ d.pos

theorem within_ofText (source : List Char) : (ofText source).Within source :=
  ⟨rfl, isOffset_zero source, nofun⟩

variable {source : List Char} {c d e : Cursor}

theorem Within.pos (h : c.Within source) : IsOffset source c.pos :=
  ⟨c.front, c.unread, h.source_eq.symm, c.byteSize_front⟩

theorem Within.splitAt?_pos (h : c.Within source) : splitAt? c.pos source = some (c.front, c.unread) := by
  rw [← h.source_eq]
  exact c.splitAt?_front

theorem Within.begin (h : c.Within source) : c.begin.Within source := ⟨h.source_eq, h.pos, nofun⟩

theorem Within.noting (h : c.Within source) (h' : d.Within source) : (c.noting d).Within source :=
  ⟨h.source_eq, h'.start, h'.stop⟩

theorem Ahead.trans (h : Ahead source c d) (h' : Ahead source d e) : Ahead source c e :=
  ⟨h'.within, Nat.le_trans h.pos_le h'.pos_le⟩

theorem Within.ahead_self (h : c.Within source) : Ahead source c c := ⟨h, Nat.le_refl _⟩

theorem Within.ahead_pass (h : c.Within source) (n : Nat) : Ahead source c (c.pass n) :=
  ⟨⟨(c.source_pass n).trans h.source_eq, h.start, h.stop⟩, Nat.le_add_right _ _⟩

/-- A skip notes the place behind the character, a mark the place where the cursor stands. -/
theorem Within.ahead_go (h : c.Within source) (m : Move) : Ahead source c (c.go m) := by
  have hpass := h.ahead_pass 1
  cases m with
  | take => exact hpass
  | skip => exact ⟨⟨hpass.within.source_eq, hpass.within.pos, h.stop⟩, hpass.pos_le⟩
  | mark =>
    refine ⟨⟨h.source_eq, h.start, fun n hn => ?_⟩, Nat.le_refl _⟩
    have hpos : c.pos = n := Option.some.inj hn
    exact hpos ▸ h.pos

theorem Within.ahead_follow (h : c.Within source) (ms : List Move) : Ahead source c (c.follow ms) := by
  induction ms generalizing c with
  | nil => exact h.ahead_self
  | cons m ms ih => exact (h.ahead_go m).trans (ih (h.ahead_go m).within)

theorem Within.ahead_advanceTo (h : c.Within source) (offset : Nat) : Ahead source c (c.advanceTo offset) := by
  unfold advanceTo
  split
  · exact h.ahead_pass _
  · exact h.ahead_self

theorem Within.ahead_bump? (h : c.Within source) {s : List Char} (hd : c.bump? s = some d) : Ahead source c d := by
  unfold bump? at hd
  split at hd
  · cases hd
    exact h.ahead_pass _
  · cases hd

theorem Within.ahead_bumpIgnoreCase? (h : c.Within source) {s : List Char} (hd : c.bumpIgnoreCase? s = some d) :
    Ahead source c d := by
  obtain ⟨head, rest, -, -, rfl⟩ := bumpIgnoreCase?_eq_some_iff.1 hd
  exact h.ahead_pass _

end Cursor

end IniScan
