import Mathlib.Data.List.DropRight
import IniScan.Proofs.Text.Runs

/-!
# Texts without the blanks around them

* `trim_eq_nil_iff`: nothing is left exactly of a text of blanks.
* `exists_back`: what is left begins and ends with a character that is no blank.
-/
namespace IniScan.Text

/-- The text without the blanks at its ends. -/
def trim (s : List Char) : List Char := (s.dropWhile isBlank).rdropWhile isBlank

theorem trim_eq_nil_iff {s : List Char} : trim s = [] ↔ ∀ c ∈ s, isBlank c = true := by
  rw [trim, List.rdropWhile_eq_nil_iff]
  refine ⟨?_, ?_⟩
  · intro h c hc
    rw [← List.takeWhile_append_dropWhile (p := isBlank) (l := s), List.mem_append] at hc
    rcases hc with hc | hc
    · exact of_mem_takeWhile hc
    · exact h c hc
  · intro h c hc
    exact h c (List.dropWhile_subset _ hc)

/-- Any other text is its indent, what is left of it and blanks behind that. -/
theorem exists_back {s : List Char} (hs : trim s ≠ []) : ∃ front last back, trim s = front ++ [last] ∧
    s = s.takeWhile isBlank ++ (front ++ [last] ++ back) ∧ isBlank last = false ∧ Stops isBlank (front ++ [last]) ∧
    ∀ c ∈ back, isBlank c = true := by
  have hlast : isBlank ((trim s).getLast hs) = false :=
    Bool.eq_false_iff.2 (List.rdropWhile_last_not isBlank (s.dropWhile isBlank) hs)
  have hconcat := List.dropLast_concat_getLast hs
  generalize (trim s).getLast hs = last at hlast hconcat
  generalize (trim s).dropLast = front at hconcat
  have hback : trim s ++ (s.dropWhile isBlank).rtakeWhile isBlank = s.dropWhile isBlank := by
    simp [trim, List.rdropWhile, List.rtakeWhile, ← List.reverse_append]
  rw [← hconcat] at hback
  have hstops := stops_dropWhile isBlank s
  rw [← hback] at hstops
  refine ⟨front, last, (s.dropWhile isBlank).rtakeWhile isBlank, hconcat.symm, ?_, hlast,
    stops_of_append hstops, fun c hc => List.mem_rtakeWhile_imp hc⟩
  rw [hback, List.takeWhile_append_dropWhile]

end IniScan.Text
