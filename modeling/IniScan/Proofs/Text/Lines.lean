import IniScan.Proofs.Text.Runs

/-!
# The lines of a text

A line is a maximal piece between line ends; between the two of a CR LF pair lies an empty one. What counts of a
line is its text: the line without the blanks at its start, unless it has nothing else. `texts` gives the texts in
order, each with its offset.

* `texts_append_of_white`: blanks and line ends at the front of a text add nothing to its texts.
* `texts_of_line`: a text at the front is the first one, and the others follow behind it.
* `white_or_line`: where the first text stands.
-/
namespace IniScan.Text

/-- Blanks and line ends. -/
def isWhite (c : Char) : Bool := isBlank c || isLineEnd c

/-- Pieces with their offsets, where the first starts at `p` and a line end stands between each and the next. -/
def numbered (p : Nat) : List (List Char) → List (Nat × List Char)
  | [] => []
  | l :: ls => (p, l) :: numbered (p + byteSize l + 1) ls

/-- The lines of a text that starts at `p`. -/
def lines (p : Nat) (s : List Char) : List (Nat × List Char) := numbered p (s.splitOnP isLineEnd)

/-- The line holds more than blanks. -/
def hasText (l : Nat × List Char) : Bool := l.2.any fun c => !isBlank c

/-- The line without the blanks at its start. -/
def unindent (l : Nat × List Char) : Nat × List Char := (l.1 + byteSize (l.2.takeWhile isBlank), l.2.dropWhile isBlank)

/-- The texts of all lines that have one. -/
def texts (p : Nat) (s : List Char) : List (Nat × List Char) := ((lines p s).filter hasText).map unindent

@[simp] theorem utf8Size_of_isBlank {c : Char} (h : isBlank c = true) : c.utf8Size = 1 := by
  simp only [isBlank, Bool.or_eq_true, decide_eq_true_eq] at h
  rcases h with rfl | rfl <;> rfl

@[simp] theorem utf8Size_of_isLineEnd {c : Char} (h : isLineEnd c = true) : c.utf8Size = 1 := by
  simp only [isLineEnd, Bool.or_eq_true, decide_eq_true_eq] at h
  rcases h with rfl | rfl <;> rfl

theorem not_isLineEnd_of_isBlank {c : Char} (h : isBlank c = true) : isLineEnd c = false := by
  simp only [isBlank, Bool.or_eq_true, decide_eq_true_eq] at h
  rcases h with rfl | rfl <;> rfl

/-! ## White space in front -/

theorem texts_of_isLineEnd (p : Nat) {c : Char} (hc : isLineEnd c = true) (s : List Char) :
    texts p (c :: s) = texts (p + 1) s := by
  rw [texts, lines, List.splitOnP_cons_eq_if_modifyHead, if_pos hc, numbered, List.filter_cons_of_neg (by simp [hasText])]
  rfl

/-- A blank moves the first line's offset by one and makes its indent one longer. -/
theorem texts_of_isBlank (p : Nat) {c : Char} (hc : isBlank c = true) (s : List Char) :
    texts p (c :: s) = texts (p + 1) s := by
  obtain ⟨l, ls, hs⟩ := List.exists_cons_of_ne_nil (List.splitOnP_ne_nil isLineEnd s)
  have hsize := utf8Size_of_isBlank hc
  have hnum : lines p (c :: s) = (p, c :: l) :: numbered (p + 1 + byteSize l + 1) ls := by
    rw [lines, List.splitOnP_cons_eq_if_modifyHead, if_neg (by rw [not_isLineEnd_of_isBlank hc]; simp), hs,
      List.modifyHead_cons, numbered, byteSize_cons, hsize, Nat.add_assoc p 1]
  have hnum' : lines (p + 1) s = (p + 1, l) :: numbered (p + 1 + byteSize l + 1) ls := by
    rw [lines, hs, numbered]
  have hhas : hasText (p, c :: l) = hasText (p + 1, l) := by simp [hasText, hc]
  have hunindent : unindent (p, c :: l) = unindent (p + 1, l) := by
    simp only [unindent, List.takeWhile_cons_of_pos hc, List.dropWhile_cons_of_pos hc, byteSize_cons, hsize,
      Nat.add_assoc]
  rw [texts, texts, hnum, hnum', List.filter_cons, List.filter_cons, hhas]
  split
  · rw [List.map_cons, List.map_cons, hunindent]
  · rfl

theorem texts_append_of_white (p : Nat) {w : List Char} (hw : ∀ c ∈ w, isWhite c = true) (s : List Char) :
    texts p (w ++ s) = texts (p + byteSize w) s := by
  induction w generalizing p with
  | nil => rfl
  | cons c cs ih =>
    have hcs := ih (p + 1) fun d hd => hw d (List.mem_cons_of_mem _ hd)
    have hc := hw c List.mem_cons_self
    rw [isWhite, Bool.or_eq_true] at hc
    rw [List.cons_append, byteSize_cons, ← Nat.add_assoc]
    rcases hc with hc | hc
    · rw [texts_of_isBlank p hc, hcs, utf8Size_of_isBlank hc]
    · rw [texts_of_isLineEnd p hc, hcs, utf8Size_of_isLineEnd hc]

/-! ## A text in front -/

theorem texts_nil (p : Nat) : texts p [] = [] := rfl

/-- The line that begins the text, when it is not indented. -/
theorem texts_of_line (p : Nat) {c : Char} (hc : isWhite c = false) {l rest : List Char}
    (hl : ∀ d ∈ c :: l, isLineEnd d = false) (hr : Stops (fun d => !isLineEnd d) rest) :
    texts p (c :: l ++ rest) = (p, c :: l) :: texts (p + byteSize (c :: l)) rest := by
  rw [isWhite, Bool.or_eq_false_iff] at hc
  have hhas : hasText (p, c :: l) = true := by simp [hasText, hc.1]
  have hunindent : unindent (p, c :: l) = (p, c :: l) := by simp [unindent, hc.1]
  cases rest with
  | nil =>
    rw [List.append_nil, texts_nil, texts, lines, List.splitOnP_eq_singleton hl, numbered,
      List.filter_cons_of_pos hhas, List.map_cons, hunindent]
    rfl
  | cons e r =>
    have he : isLineEnd e = true := of_stops_not hr
    rw [texts_of_isLineEnd _ he, texts, lines, List.splitOnP_append_cons_of_forall_mem hl e he, numbered,
      List.filter_cons_of_pos hhas, List.map_cons, hunindent]
    rfl

/-- A text is white, or its first text stands behind white space and goes up to a line end. -/
theorem white_or_line (u : List Char) : (∀ c ∈ u, isWhite c = true) ∨ ∃ w c l rest, u = w ++ (c :: l ++ rest) ∧
    (∀ d ∈ w, isWhite d = true) ∧ isWhite c = false ∧ (∀ d ∈ c :: l, isLineEnd d = false) ∧
      Stops (fun d => !isLineEnd d) rest := by
  have hw : ∀ c ∈ u.takeWhile isWhite, isWhite c = true := fun c hc => of_mem_takeWhile hc
  have hu : u = u.takeWhile isWhite ++ u.dropWhile isWhite := List.takeWhile_append_dropWhile.symm
  have hstops := stops_dropWhile isWhite u
  cases hd : u.dropWhile isWhite with
  | nil =>
    left
    rw [hd, List.append_nil] at hu
    rw [hu]
    exact hw
  | cons c s =>
    right
    rw [hd] at hu hstops
    have hc : isWhite c = false := stops_cons.1 hstops
    have hend : isLineEnd c = false := by
      rw [isWhite, Bool.or_eq_false_iff] at hc
      exact hc.2
    refine ⟨_, c, s.takeWhile fun d => !isLineEnd d, s.dropWhile fun d => !isLineEnd d, ?_, hw, hc, ?_,
      stops_dropWhile _ s⟩
    · rw [List.cons_append, List.takeWhile_append_dropWhile]
      exact hu
    · intro d hd
      rcases List.mem_cons.1 hd with rfl | hd
      · exact hend
      · exact not_of_mem_takeWhile hd

end IniScan.Text
