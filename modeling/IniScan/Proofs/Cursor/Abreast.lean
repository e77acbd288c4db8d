import IniScan.Proofs.Host.Found

/-!
# Cursors at one place

Two cursors that stand at one place of one text may note different things about the pending token. The notes are all
in which they differ, and whatever moves the read position takes both to one place again. Beginning a token makes them
the same.

* `abreast_follow`: calls on the host go past as many characters as they advance, whatever they note.
* `unread_follow_ne_nil`: calls that keep to the text never advance at its end.
* `Abreast.begin_eq`: nothing is left of the notes where a token begins.
-/
namespace IniScan.Cursor

open Text

/-- The cursors part the same text at the same place. -/
structure Abreast (c d : Cursor) : Prop where
  passed : c.passed = d.passed
  unread : c.unread = d.unread

theorem Abreast.refl (c : Cursor) : c.Abreast c := ⟨rfl, rfl⟩

theorem Abreast.symm {c d : Cursor} (h : c.Abreast d) : d.Abreast c := ⟨h.passed.symm, h.unread.symm⟩

theorem Abreast.trans {c d e : Cursor} (h : c.Abreast d) (h' : d.Abreast e) : c.Abreast e :=
  ⟨h.passed.trans h'.passed, h.unread.trans h'.unread⟩

section

variable {c d : Cursor}

theorem Abreast.pos (h : c.Abreast d) : c.pos = d.pos := by rw [c.pos_eq, d.pos_eq, h.passed]

theorem Abreast.pass (h : c.Abreast d) (n : Nat) : (c.pass n).Abreast (d.pass n) := by
  refine ⟨?_, ?_⟩
  · rw [passed_pass, passed_pass, h.unread, h.passed]
  · rw [unread_pass, unread_pass, h.unread]

theorem Abreast.eatWhile (h : c.Abreast d) (p : Char → Bool) : (c.eatWhile p).Abreast (d.eatWhile p) := by
  rw [Cursor.eatWhile, Cursor.eatWhile, h.unread]
  exact h.pass _

/-- Both cursors can go past the text, to one place again, or neither can. -/
def AbreastIf (c d : Option Cursor) : Prop := (c = none ∧ d = none) ∨ ∃ x y, c = some x ∧ d = some y ∧ x.Abreast y

theorem Abreast.bump? (h : c.Abreast d) (s : List Char) : AbreastIf (c.bump? s) (d.bump? s) := by
  unfold Cursor.bump?
  rw [h.unread]
  split
  · exact Or.inr ⟨_, _, rfl, rfl, h.pass _⟩
  · exact Or.inl ⟨rfl, rfl⟩

theorem Abreast.bumpIgnoreCase? (h : c.Abreast d) (s : List Char) :
    AbreastIf (c.bumpIgnoreCase? s) (d.bumpIgnoreCase? s) := by
  unfold Cursor.bumpIgnoreCase?
  rw [h.unread]
  split
  · split
    · exact Or.inr ⟨_, _, rfl, rfl, h.pass _⟩
    · exact Or.inl ⟨rfl, rfl⟩
  · exact Or.inl ⟨rfl, rfl⟩

theorem Abreast.begin_eq (h : c.Abreast d) : c.begin = d.begin := by
  obtain ⟨passed, unread, pos, start, stop, hpos⟩ := c
  obtain ⟨passed', unread', pos', start', stop', hpos'⟩ := d
  obtain ⟨rfl, rfl⟩ := h
  simp only at hpos hpos'
  subst hpos hpos'
  rfl

theorem Abreast.advanceTo (h : c.Abreast d) (offset : Nat) : (c.advanceTo offset).Abreast (d.advanceTo offset) := by
  unfold Cursor.advanceTo
  rw [h.pos, h.unread]
  split
  · exact h.pass _
  · exact h

end

theorem abreast_noting (c d : Cursor) : (c.noting d).Abreast c := ⟨rfl, rfl⟩

theorem abreast_skip (c : Cursor) : (c.go .skip).Abreast (c.pass 1) := ⟨rfl, rfl⟩

theorem abreast_mark (c : Cursor) : (c.go .mark).Abreast c := ⟨rfl, rfl⟩

theorem Abreast.go {c d : Cursor} (h : c.Abreast d) (m : Move) : (c.go m).Abreast (d.go m) := by
  cases m with
  | take => exact h.pass 1
  | skip => exact c.abreast_skip.trans ((h.pass 1).trans d.abreast_skip.symm)
  | mark => exact c.abreast_mark.trans (h.trans d.abreast_mark.symm)

theorem Abreast.follow {c d : Cursor} (h : c.Abreast d) (ms : List Move) : (c.follow ms).Abreast (d.follow ms) := by
  induction ms generalizing c d with
  | nil => exact h
  | cons m ms ih => exact ih (h.go m)

theorem abreast_begin (c : Cursor) : c.begin.Abreast c := ⟨rfl, rfl⟩

theorem abreast_follow (c : Cursor) (ms : List Move) : (c.follow ms).Abreast (c.pass (Move.distance ms)) := by
  induction ms generalizing c with
  | nil => exact Abreast.refl _
  | cons m ms ih =>
    have hrest := ih (c.go m)
    cases m with
    | skip =>
      rw [Move.distance_skip, Nat.add_comm, ← pass_pass]
      exact hrest.trans (c.abreast_skip.pass _)
    | take =>
      rw [Move.distance_take, Nat.add_comm, ← pass_pass]
      exact hrest
    | mark =>
      rw [Move.distance_mark]
      exact hrest.trans (c.abreast_mark.pass _)

/-- Calls that advance no further than the text goes find a character wherever they advance. -/
theorem unread_follow_ne_nil (c : Cursor) {before after : List Move} {m : Move} (hm : m ≠ .mark)
    (hle : Move.distance (before ++ m :: after) ≤ c.unread.length) : (c.follow before).unread ≠ [] := by
  have hone : Move.distance (m :: after) = Move.distance after + 1 := by
    cases m with
    | mark => exact absurd rfl hm
    | skip => exact Move.distance_skip after
    | take => exact Move.distance_take after
  rw [Move.distance_append, hone] at hle
  rw [(c.abreast_follow before).unread, unread_pass, Ne, List.drop_eq_nil_iff]
  omega

end IniScan.Cursor
