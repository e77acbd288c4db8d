import IniScan.Text.Basic

/-!
# Maximal runs and slices

A run at the start of a text, `s.takeWhile p`, goes up to the first character without the property, if there is one. A
part of a text is found again by the sizes of what stands in front of it and of itself.

* `stops_dropWhile`: what follows a maximal run.
* `takeWhile_append_of_stops`, `dropWhile_append_of_stops`: a run is found again by what follows it.
* `exists_last_of_mem`: the last of several.
* `slice?_of_append`: a part is the slice between its offsets.
-/
namespace IniScan.Text

/-- The text is over, or its next character does not have the property. -/
def Stops (p : Char → Bool) (s : List Char) : Prop := ∀ c ∈ s.head?, p c = false

@[simp] theorem stops_nil (p : Char → Bool) : Stops p [] := by intro c hc; cases hc

@[simp] theorem stops_cons {p : Char → Bool} {c : Char} {cs : List Char} : Stops p (c :: cs) ↔ p c = false := by
  simp [Stops]

theorem of_stops_not {p : Char → Bool} {c : Char} {cs : List Char} (h : Stops (fun c => !p c) (c :: cs)) : p c = true := by
  simpa using stops_cons.1 h

theorem stops_of_append {p : Char → Bool} {a b : List Char} (h : Stops p (a ++ b)) : Stops p a := by
  cases a with
  | nil => exact stops_nil p
  | cons c cs => exact stops_cons.2 (stops_cons.1 h)

theorem stops_dropWhile (p : Char → Bool) (s : List Char) : Stops p (s.dropWhile p) := by
  induction s with
  | nil => exact stops_nil p
  | cons c cs ih =>
    by_cases hc : p c = true
    · rw [List.dropWhile_cons_of_pos hc]; exact ih
    · rw [List.dropWhile_cons_of_neg hc]; exact stops_cons.2 (by simpa using hc)

theorem takeWhile_append_of_stops {p : Char → Bool} {a b : List Char} (ha : ∀ c ∈ a, p c = true) (hb : Stops p b) :
    (a ++ b).takeWhile p = a := by
  rw [List.takeWhile_append_of_pos ha]
  cases b with
  | nil => simp
  | cons c cs => rw [List.takeWhile_cons_of_neg (by rw [stops_cons.1 hb]; simp), List.append_nil]

theorem dropWhile_append_of_stops {p : Char → Bool} {a b : List Char} (ha : ∀ c ∈ a, p c = true) (hb : Stops p b) :
    (a ++ b).dropWhile p = b := by
  rw [List.dropWhile_append_of_pos ha]
  cases b with
  | nil => rfl
  | cons c cs => rw [List.dropWhile_cons_of_neg (by rw [stops_cons.1 hb]; simp)]

theorem of_mem_takeWhile {p : Char → Bool} {s : List Char} {c : Char} (h : c ∈ s.takeWhile p) : p c = true :=
  List.all_eq_true.1 List.all_takeWhile c h

theorem not_of_mem_takeWhile {p : Char → Bool} {s : List Char} {c : Char} (h : c ∈ s.takeWhile fun c => !p c) :
    p c = false := by
  simpa using of_mem_takeWhile h

/-- A list is parted at the last place where it holds `a`. -/
theorem exists_last_of_mem {α : Type} {a : α} {s : List α} (h : a ∈ s) : ∃ p q, s = p ++ a :: q ∧ a ∉ q := by
  obtain ⟨q, p, he, hq⟩ := List.eq_append_cons_of_mem (List.mem_reverse.2 h)
  refine ⟨p.reverse, q.reverse, ?_, by simpa using hq⟩
  rw [← List.reverse_reverse s, he]
  simp

theorem slice?_of_append (a b c : List Char) :
    slice? (a ++ (b ++ c)) (byteSize a) (byteSize a + byteSize b) = some b := by
  have hguard : (guard (byteSize a ≤ byteSize a + byteSize b) : Option Unit) = some () := if_pos (Nat.le_add_right _ _)
  rw [slice?, hguard]
  simp [splitAt?_byteSize]

end IniScan.Text
