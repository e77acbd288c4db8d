import IniScan.Proofs.Word.Log

/-!
# Comparing whatever a word holds

A word is compared with a keyword by their sizes and by the pairs of their characters as far as both go. Whatever has been
done with the word, its size is that of its characters, and a character takes as many bytes in either case. So nothing is
left over on either side when sizes and pairs agree. A word that has dropped a character is nearly full, and no short
keyword is taken for it.

* `Keeps.le_size`: the size of a word that has dropped a character.
* `compared_by_letters`: every word that is come to, with every text.
-/
namespace IniScan.Word

open Text

/-- What was dropped had no room behind characters that are still there, and it takes four bytes at most. -/
theorem Keeps.le_size {w : Word} {l : Log} (h : w.Keeps l) (hdropped : w.saturated = true) : 252 ≤ w.size := by
  obtain ⟨c, hc⟩ := h.saturated_iff.1 hdropped
  obtain ⟨before, after, hpushes⟩ := List.append_of_mem hc
  have hroom : ¬ byteSize (l.front ++ kept before) + c.utf8Size ≤ 255 := fun hle =>
    Bool.false_ne_true ((h.greedy hpushes).2 hle)
  have hwidth := c.utf8Size_le_four
  have hstill : byteSize (l.front ++ kept before) ≤ w.size := by
    rw [h.sound.size_eq, h.chars, hpushes, kept_append, ← List.append_assoc, byteSize_append (l.front ++ kept before)]
    exact Nat.le_add_right _ _
  omega

theorem le_size_of_saturated {steps : List Step} (h : (built steps).saturated = true) : 252 ≤ (built steps).size :=
  (keeps_run keeps_empty steps).le_size h

/-- What comparing the word with the text `k` comes to. -/
structure Compares (w : Word) (k : List Char) : Prop where
  answers : w.step (.eqIgnoreCase k) = (.same (decide (w.lower = Text.lower k)), w)
  same_iff : w.eqIgnoreCase k = true ↔ w.lower = Text.lower k
  /-- A text that goes on behind the other one is not the same, whichever it is. -/
  part : (w.lower <+: Text.lower k ∨ Text.lower k <+: w.lower) → w.length ≠ k.length → w.eqIgnoreCase k = false
  /-- Sizes that agree do not make up for characters that are left over. -/
  counts : w.length ≠ k.length → byteSize w.chars = byteSize k → w.eqIgnoreCase k = false
  /-- What is compared as a size is the size of the characters. -/
  size_eq : w.size = byteSize w.chars
  full : w.saturated = true → 252 ≤ byteSize w.chars
  saturated : w.saturated = true → byteSize k < 252 → w.eqIgnoreCase k = false

/-- **A word is compared letter by letter.** Whatever has been done with it, and whatever the text is. -/
theorem compared_by_letters (steps : List Step) (k : List Char) : (built steps).Compares k := by
  have hsize := (sound_built steps).size_eq
  have hsame := eqIgnoreCase_iff hsize k
  have hlength : (built steps).length ≠ k.length → (built steps).eqIgnoreCase k = false := fun hne => by
    rw [← Bool.not_eq_true, hsame]
    intro hlower
    have hcount := congrArg List.length hlower
    rw [lower, length_lower, length_lower] at hcount
    exact hne hcount
  have hfull : (built steps).saturated = true → 252 ≤ byteSize (built steps).chars := fun h => by
    rw [← hsize]
    exact le_size_of_saturated h
  refine ⟨?_, hsame, fun _ => hlength, fun hne _ => hlength hne, hsize, hfull, fun hsaturated hshort => ?_⟩
  · rw [step, Bool.eq_iff_iff.2 (hsame.trans decide_eq_true_iff.symm)]
  · rw [← Bool.not_eq_true, hsame]
    intro hlower
    have hbytes : byteSize (built steps).chars = byteSize k := by
      rw [← byteSize_lower (built steps).chars, ← byteSize_lower k]
      exact congrArg byteSize hlower
    have hlong := hfull hsaturated
    omega

/-- No fewer than 252 bytes: behind 252 letters there is no room for four bytes more, and the letters are still compared. -/
example : (ofText (List.replicate 252 'a' ++ ['😀'])).saturated = true ∧
    (ofText (List.replicate 252 'a' ++ ['😀'])).eqIgnoreCase (List.replicate 252 'A') = true := by decide +kernel

end IniScan.Word
