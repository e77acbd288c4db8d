import IniScan.Proofs.Host.Found
import IniScan.Proofs.Text.Case
import IniScan.Proofs.Text.Runs

/-!
# Reading the grammar's own text

* `bump?_of_append`: a text that comes next is gone past.
* `bumpIgnoreCase?_eq_some_iff`: up to case the text that comes next is compared as a whole.
* `unread_eatWhile`, `pos_eatWhile`: behind a run.
-/
namespace IniScan.Cursor

open Text

theorem bump?_of_append {c : Cursor} {s rest : List Char} (hu : c.unread = s ++ rest) : c.bump? s = some (c.pass s.length) := by
  have hp : s.isPrefixOf c.unread = true := by
    rw [hu, List.isPrefixOf_iff_prefix]
    exact List.prefix_append s rest
  exact if_pos hp

/-- The bytes that are compared are whole characters, since case does not change sizes. -/
theorem bumpIgnoreCase?_eq_some_iff {c d : Cursor} {s : List Char} : c.bumpIgnoreCase? s = some d ↔
    ∃ head rest, c.unread = head ++ rest ∧ lower head = lower s ∧ d = c.pass head.length := by
  unfold bumpIgnoreCase?
  refine ⟨?_, ?_⟩
  · intro h
    split at h
    · rename_i head rest hcut
      split at h
      · rename_i heq
        obtain ⟨hu, -⟩ := splitAt?_eq_some_iff.1 hcut
        rw [Option.some.injEq] at h
        exact ⟨head, rest, hu, eqIgnoreCase_iff.1 heq, h.symm⟩
      · cases h
    · cases h
  · intro ⟨head, rest, hu, heq, hd⟩
    have hsize : byteSize head = byteSize s := by rw [← byteSize_lower head, heq, byteSize_lower]
    have hcase : eqIgnoreCase head s = true := eqIgnoreCase_iff.2 heq
    rw [hu, ← hsize, splitAt?_byteSize]
    simp only [hcase, if_true, hd]

/-- The text comes next in some case exactly when it is gone past. -/
theorem isSome_bumpIgnoreCase?_iff {c : Cursor} {s : List Char} :
    (c.bumpIgnoreCase? s).isSome = true ↔ lower s <+: lower c.unread := by
  rw [Option.isSome_iff_exists]
  refine ⟨?_, ?_⟩
  · intro ⟨d, hd⟩
    obtain ⟨head, rest, hu, heq, -⟩ := bumpIgnoreCase?_eq_some_iff.1 hd
    rw [hu, lower_append, heq]
    exact List.prefix_append _ _
  · intro ⟨tail, htail⟩
    obtain ⟨head, rest, hu, hhead, -⟩ := List.map_eq_append_iff.1 htail.symm
    exact ⟨_, bumpIgnoreCase?_eq_some_iff.2 ⟨head, rest, hu, hhead, rfl⟩⟩

theorem unread_eatWhile (c : Cursor) (p : Char → Bool) : (c.eatWhile p).unread = c.unread.dropWhile p := by
  have h : c.unread = c.unread.takeWhile p ++ c.unread.dropWhile p := List.takeWhile_append_dropWhile.symm
  have hd := congrArg (List.drop (c.unread.takeWhile p).length) h
  rw [List.drop_left' rfl] at hd
  exact hd

theorem pos_eatWhile (c : Cursor) (p : Char → Bool) :
    (c.eatWhile p).pos = c.pos + byteSize (c.unread.takeWhile p) := by
  have h : c.unread = c.unread.takeWhile p ++ c.unread.dropWhile p := List.takeWhile_append_dropWhile.symm
  have ht := congrArg (List.take (c.unread.takeWhile p).length) h
  rw [List.take_left' rfl] at ht
  rw [eatWhile, pos_pass, ht]

end IniScan.Cursor
