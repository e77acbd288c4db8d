import IniScan.Word.Basic
import IniScan.Proofs.Text.Case

/-!
# Comparing a collected word with a keyword

A word drops what does not fit, so it may be shorter than the text that was pushed. It then takes at least 252 bytes,
since no character takes more than four. A keyword below that size is therefore never mistaken for what is left of a
longer text.

* `pushAll_cases`: either everything fits, or the word is nearly full.
* `eqIgnoreCase_iff`: sizes and pairs decide whether the characters are the same up to case.
* `eqIgnoreCase_ofText`: the word left of a text is a short keyword exactly when the text is.
* `take_ofText`: the first characters of a text are kept, as many as fit at any width.
* `lower_ofText_congr`: what is left of two texts that agree up to case agrees up to case.
-/
namespace IniScan.Word

open Text

theorem size_le_push (w : Word) (c : Char) : w.size ≤ (w.push c).size := by
  unfold push
  split
  · exact Nat.le_add_right _ _
  · exact Nat.le_refl _

theorem size_le_pushAll (w : Word) (s : List Char) : w.size ≤ (w.pushAll s).size := by
  induction s generalizing w with
  | nil => exact Nat.le_refl _
  | cons c cs ih => exact Nat.le_trans (w.size_le_push c) (ih (w.push c))

theorem pushAll_cons (w : Word) (c : Char) (cs : List Char) : w.pushAll (c :: cs) = (w.push c).pushAll cs := rfl

theorem pushAll_append (w : Word) (s t : List Char) : w.pushAll (s ++ t) = (w.pushAll s).pushAll t :=
  List.foldl_append

theorem pushAll_cases (w : Word) (s : List Char) :
    ((w.pushAll s).chars = w.chars ++ s ∧ (w.pushAll s).size = w.size + byteSize s) ∨
      (252 ≤ (w.pushAll s).size ∧ 252 ≤ w.size + byteSize s) := by
  induction s generalizing w with
  | nil => exact Or.inl ⟨by simp [pushAll], rfl⟩
  | cons c cs ih =>
    rw [pushAll_cons]
    by_cases hfits : w.size + c.utf8Size ≤ capacity
    · have hs : (w.push c).size = w.size + c.utf8Size := by rw [push_of_le hfits]
      have hc : (w.push c).chars = w.chars ++ [c] := by rw [push_of_le hfits]
      rcases ih (w.push c) with ⟨h1, h2⟩ | ⟨h1, h2⟩
      · left
        exact ⟨by rw [h1, hc, List.append_assoc]; rfl, by rw [h2, hs, byteSize_cons, Nat.add_assoc]⟩
      · right
        exact ⟨h1, by rw [byteSize_cons]; omega⟩
    · right
      have h4 := c.utf8Size_le_four
      have hfull : 252 ≤ w.size := by
        rw [show capacity = 255 from rfl] at hfits
        omega
      have := w.size_le_push c
      have := (w.push c).size_le_pushAll cs
      exact ⟨by omega, by omega⟩

/-- What does not go past the capacity is not dropped. -/
theorem pushAll_of_le {w : Word} {s : List Char} (h : w.size + byteSize s ≤ capacity) :
    w.pushAll s = ⟨w.chars ++ s, w.size + byteSize s, w.saturated⟩ := by
  induction s generalizing w with
  | nil => simp [pushAll]
  | cons c cs ih =>
    rw [byteSize_cons] at h
    have hpush := push_of_le (w := w) (c := c) (by omega)
    rw [pushAll_cons, ih (by rw [hpush]; simp only; omega), hpush]
    simp [Nat.add_assoc]

theorem ofText_of_le {s : List Char} (h : byteSize s ≤ capacity) : ofText s = ⟨s, byteSize s, false⟩ := by
  have hroom : empty.size + byteSize s ≤ capacity := by rwa [size_empty, Nat.zero_add]
  rw [ofText, pushAll_of_le hroom, size_empty, Nat.zero_add]
  rfl

theorem chars_ofText {s : List Char} (h : byteSize s ≤ capacity) : (ofText s).chars = s := by rw [ofText_of_le h]

theorem push_ofText (s : List Char) (c : Char) : (ofText s).push c = ofText (s ++ [c]) := by
  rw [ofText, ofText, pushAll_append]
  rfl

/-- The size decides how far the comparison goes, and all of both texts is compared if it is that of the characters. -/
theorem eqIgnoreCase_iff {w : Word} (h : w.size = byteSize w.chars) (k : List Char) :
    w.eqIgnoreCase k = true ↔ w.lower = Text.lower k := by
  simp only [eqIgnoreCase, h, Bool.and_eq_true, beq_iff_eq, List.all_eq_true]
  exact lower_eq_iff_zip

theorem eqIgnoreCase_ofText {k : List Char} (hk : byteSize k < 252) (s : List Char) :
    (ofText s).eqIgnoreCase k = true ↔ Text.lower s = Text.lower k := by
  rcases pushAll_cases empty s with ⟨hchars, hsize⟩ | ⟨hfull, hlong⟩
  · have hs : (ofText s).chars = s := hchars
    have hz : (ofText s).size = byteSize s := by rw [ofText, hsize]; exact Nat.zero_add _
    rw [eqIgnoreCase_iff (by rw [hz, hs]), lower, hs]
  · have hz : 252 ≤ (ofText s).size := hfull
    have hs : 252 ≤ byteSize s := by rwa [size_empty, Nat.zero_add] at hlong
    refine ⟨fun hb => ?_, fun h => ?_⟩
    · rw [eqIgnoreCase, Bool.and_eq_true, beq_iff_eq] at hb
      omega
    · have hsame : byteSize s = byteSize k := by rw [← byteSize_lower s, h, byteSize_lower]
      omega

/-! ## The first characters -/

theorem chars_isPrefix_push (w : Word) (c : Char) : w.chars <+: (w.push c).chars := by
  unfold push
  split
  · exact List.prefix_append _ _
  · exact List.prefix_refl _

theorem chars_isPrefix_pushAll (w : Word) (s : List Char) : w.chars <+: (w.pushAll s).chars := by
  induction s generalizing w with
  | nil => exact List.prefix_refl _
  | cons c cs ih => exact (w.chars_isPrefix_push c).trans (ih (w.push c))

/-- A word with room for `n` characters of any width keeps the first `n` that are pushed. -/
theorem take_pushAll {w : Word} {n : Nat} (h : w.size + 4 * n ≤ capacity) (s : List Char) :
    (w.pushAll s).chars.take (w.chars.length + n) = w.chars ++ s.take n := by
  induction n generalizing w s with
  | zero =>
    rw [Nat.add_zero, List.take_zero, List.append_nil]
    exact List.prefix_iff_eq_take.1 (w.chars_isPrefix_pushAll s) |>.symm
  | succ n ih =>
    cases s with
    | nil =>
      rw [List.take_nil, List.append_nil]
      exact List.take_of_length_le (Nat.le_add_right _ _)
    | cons c cs =>
      have hwidth := c.utf8Size_le_four
      have hpush := push_of_le (w := w) (c := c) (by omega)
      have hrest := ih (w := w.push c) (by rw [hpush]; simp only; omega) cs
      rw [hpush] at hrest
      simp only [List.length_append, List.length_singleton, List.append_assoc, List.singleton_append] at hrest
      rw [pushAll_cons, hpush, show w.chars.length + (n + 1) = w.chars.length + 1 + n by omega, hrest]
      rfl

theorem take_ofText {n : Nat} (h : 4 * n ≤ capacity) (s : List Char) : (ofText s).chars.take n = s.take n := by
  have htake := take_pushAll (w := empty) (n := n) (by rw [size_empty]; omega) s
  simpa [empty, ofText] using htake

/-! ## Case -/

theorem push_congr {v w : Word} {c d : Char} (hsize : v.size = w.size) (hlower : v.lower = w.lower)
    (h : c.toLower = d.toLower) : (v.push c).size = (w.push d).size ∧ (v.push c).lower = (w.push d).lower := by
  have hwidth : c.utf8Size = d.utf8Size := by rw [← utf8Size_toLower c, h, utf8Size_toLower]
  have hfits : v.fits c = w.fits d := by rw [fits, fits, hsize, hwidth]
  unfold push
  rw [hfits]
  split
  · refine ⟨by simp only [hsize, hwidth], ?_⟩
    rw [lower, lower] at hlower
    simp only [lower, lower_append, hlower, lower_cons, h]
  · exact ⟨hsize, hlower⟩

theorem pushAll_congr {v w : Word} {s t : List Char} (hsize : v.size = w.size) (hlower : v.lower = w.lower)
    (h : Text.lower s = Text.lower t) : (v.pushAll s).lower = (w.pushAll t).lower := by
  induction s generalizing t v w with
  | nil =>
    obtain rfl : t = [] := List.map_eq_nil_iff.1 h.symm
    exact hlower
  | cons c cs ih =>
    cases t with
    | nil => cases h
    | cons d ds =>
      rw [lower_cons, lower_cons, List.cons.injEq] at h
      obtain ⟨hsize', hlower'⟩ := push_congr hsize hlower h.1
      have hrest := ih hsize' hlower' h.2
      exact hrest

/-- Case decides neither what is dropped nor what is kept. -/
theorem lower_ofText_congr {s t : List Char} (h : Text.lower s = Text.lower t) : (ofText s).lower = (ofText t).lower :=
  pushAll_congr rfl rfl h

end IniScan.Word
