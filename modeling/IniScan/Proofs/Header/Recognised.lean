import IniScan.Header.Probe
import IniScan.Proofs.Section.Modes
import IniScan.Proofs.Section.Vocabulary
import IniScan.Proofs.Text.Runs
import IniScan.Proofs.Word.Compare

/-!
# What the probe recognises

Behind its blanks the probe collects the letters that come first, as far as its window goes, and nothing of them is
dropped on the way. So its verdict is one on a part of the text. Exact mode has the shorter windows, but a name that stands
in them stands at the start of the longer ones as well.

* `recognises_letters`: the word that a verdict on letters is about.
* `isHeader_eq`: the verdict is about the letters `collected`.
* `isHeader_exact_iff`, `isHeader_substring_iff`: the verdict in terms of the text alone.
* `isHeader_of_exact`: what exact mode recognises is recognised in substring mode too.
-/
namespace IniScan.Header.Probe

open Text

theorem window_le (mode : MatchMode) (c : Char) : window mode c ≤ Word.capacity := by
  cases mode with
  | exact =>
    show Section.longestFrom c ≤ 255
    rcases Section.longestFrom_cases c with h | ⟨k, -, h⟩
    · omega
    · have := k.length_letters_le
      omega
  | substring =>
    simp only [window]
    split <;> simp

/-- The probe does not begin with anything but a letter. -/
theorem isAlpha_of_window {mode : MatchMode} {c : Char} (h : window mode c ≠ 0) : c.isAlpha = true := by
  cases mode with
  | exact =>
    rcases Section.longestFrom_cases c with h0 | ⟨k, hk, -⟩
    · exact absurd h0 h
    · exact isAlpha_of_toLower (Section.isAlpha_of_mem_letters (List.mem_of_head? hk))
  | substring =>
    simp only [window] at h
    split at h
    · assumption
    · exact absurd rfl h

theorem chars_ofText_of_isAlpha {a : List Char} (ha : ∀ c ∈ a, c.isAlpha = true) (hl : a.length ≤ Word.capacity) :
    (Word.ofText a).chars = a := Word.chars_ofText (by rw [byteSize_of_isAlpha ha]; exact hl)

theorem recognises_letters (mode : MatchMode) {n : Nat} (hn : n ≤ Word.capacity) (s : List Char) {a : List Char}
    (ha : ∀ c ∈ a, c.isAlpha = true) (hl : a.length ≤ n) : (letters (Word.ofText a) n).recognises mode s =
      (Section.ofWord? mode (Word.ofText (a ++ (s.takeWhile Char.isAlpha).take (n - a.length)))).isSome := by
  have hlength : (Word.ofText a).length = a.length := by
    rw [Word.length, chars_ofText_of_isAlpha ha (Nat.le_trans hl hn)]
  induction s generalizing a with
  | nil => rw [recognises, List.takeWhile_nil, List.take_nil, List.append_nil, verdict]
  | cons c cs ih =>
    rw [recognises, next, hlength]
    by_cases hc : c.isAlpha = true
    · by_cases hlt : a.length < n
      · have hgo : (c.isAlpha && decide (a.length < n)) = true := by rw [hc, decide_eq_true hlt]; rfl
        have ha' : ∀ d ∈ a ++ [c], d.isAlpha = true := by
          intro d hd
          rcases List.mem_append.1 hd with hd | hd
          · exact ha d hd
          · rw [List.mem_singleton.1 hd]
            exact hc
        have hl' : (a ++ [c]).length ≤ n := by
          rw [List.length_append, List.length_singleton]
          omega
        have hlength' : (Word.ofText (a ++ [c])).length = (a ++ [c]).length := by
          rw [Word.length, chars_ofText_of_isAlpha ha' (Nat.le_trans hl' hn)]
        have htake : (List.takeWhile Char.isAlpha (c :: cs)).take (n - a.length) =
            c :: (cs.takeWhile Char.isAlpha).take (n - (a ++ [c]).length) := by
          have e : n - a.length = (n - (a ++ [c]).length) + 1 := by
            rw [List.length_append, List.length_singleton]
            omega
          rw [List.takeWhile_cons_of_pos hc, e, List.take_succ_cons]
        rw [if_pos hgo, htake, Word.push_ofText]
        simp only
        rw [ih ha' hl' hlength', List.append_assoc, List.singleton_append]
      · have e : n - a.length = 0 := by omega
        have hstop : ¬ (c.isAlpha && decide (a.length < n)) = true := by simp [hlt]
        rw [if_neg hstop, e, List.take_zero, List.append_nil]
        rfl
    · have hstop : ¬ (c.isAlpha && decide (a.length < n)) = true := by simp [hc]
      rw [if_neg hstop, List.takeWhile_cons_of_neg hc, List.take_nil, List.append_nil]
      rfl

/-- Blanks do not count. -/
theorem recognises_blanks (mode : MatchMode) (s : List Char) :
    blanks.recognises mode s = blanks.recognises mode (s.dropWhile isBlank) := by
  induction s with
  | nil => rfl
  | cons c cs ih =>
    by_cases hc : isBlank c = true
    · rw [List.dropWhile_cons_of_pos hc, ← ih, recognises, next, if_pos hc]
    · rw [List.dropWhile_cons_of_neg hc]

/-! ## The word of the verdict -/

/-- The letters behind the blanks, as far as the window of the first one goes. -/
def collected (mode : MatchMode) (s : List Char) : List Char :=
  match s.dropWhile isBlank with
  | [] => []
  | c :: cs => ((c :: cs).takeWhile Char.isAlpha).take (window mode c)

theorem collected_isPrefix (mode : MatchMode) (s : List Char) : collected mode s <+: s.dropWhile isBlank := by
  unfold collected
  split
  · exact List.nil_prefix
  · rename_i h
    rw [h]
    exact (List.take_prefix _ _).trans (List.takeWhile_prefix _)

theorem isAlpha_of_mem_collected {mode : MatchMode} {s : List Char} {c : Char} (h : c ∈ collected mode s) :
    c.isAlpha = true := by
  unfold collected at h
  split at h
  · cases h
  · exact of_mem_takeWhile (List.mem_of_mem_take h)

theorem length_collected_le (mode : MatchMode) (s : List Char) : (collected mode s).length ≤ Word.capacity := by
  unfold collected
  split
  · exact Nat.zero_le _
  · exact Nat.le_trans (List.length_take_le _ _) (window_le mode _)

/-- Nothing of it is dropped. -/
theorem lower_collected (mode : MatchMode) (s : List Char) :
    (Word.ofText (collected mode s)).lower = lower (collected mode s) := by
  rw [Word.lower, chars_ofText_of_isAlpha (fun c => isAlpha_of_mem_collected) (length_collected_le mode s)]

theorem isHeader_eq (mode : MatchMode) (s : List Char) :
    isHeader mode s = (Section.ofWord? mode (Word.ofText (collected mode s))).isSome := by
  have hnothing : (Section.ofWord? mode (Word.ofText [])).isSome = false := by cases mode <;> rfl
  have hstops := stops_dropWhile isBlank s
  rw [isHeader, recognises_blanks, collected]
  generalize s.dropWhile isBlank = t at hstops ⊢
  cases t with
  | nil => exact hnothing.symm
  | cons c cs =>
    have hblank : isBlank c = false := stops_cons.1 hstops
    simp only
    rw [recognises, next, hblank, if_neg Bool.false_ne_true]
    by_cases hzero : window mode c = 0
    · rw [if_pos hzero, hzero, List.take_zero, hnothing]
      rfl
    · have hc := isAlpha_of_window hzero
      have hcs : ∀ d ∈ [c], d.isAlpha = true := fun d hd => by rw [List.mem_singleton.1 hd]; exact hc
      have hword := recognises_letters mode (window_le mode c) cs hcs (Nat.one_le_iff_ne_zero.2 hzero)
      obtain ⟨n, hn⟩ := Nat.exists_eq_succ_of_ne_zero hzero
      rw [if_neg hzero, List.takeWhile_cons_of_pos hc]
      simp only [hn, List.take_succ_cons] at hword ⊢
      exact hword

/-- In exact mode a text that is recognised begins, behind its blanks, with a section name. -/
theorem exists_name_of_isHeader {s : List Char} (h : isHeader .exact s = true) :
    ∃ k : Section, k.letters <+: lower (s.dropWhile isBlank) := by
  rw [isHeader_eq, Section.isSome_ofWord?_exact, lower_collected] at h
  obtain ⟨k, hk⟩ := h
  exact ⟨k, hk.trans ((collected_isPrefix .exact s).map Char.toLower)⟩

/-! ## What the verdict comes to -/

/-- The window is wide enough for every name that begins with its first letter. -/
theorem isPrefix_collected {a s : List Char} {k : Section} (ha : a <+: s.dropWhile isBlank) (hk : lower a = k.letters) :
    a <+: collected .exact s := by
  have halpha : ∀ c ∈ a, c.isAlpha = true := by
    intro c hc
    have hmem : c.toLower ∈ lower a := List.mem_map_of_mem hc
    rw [hk] at hmem
    exact isAlpha_of_toLower (Section.isAlpha_of_mem_letters hmem)
  obtain ⟨rest, hrest⟩ := ha
  unfold collected
  rw [← hrest]
  cases a with
  | nil => exact List.nil_prefix
  | cons c a =>
    have hletters : c :: a <+: ((c :: a) ++ rest).takeWhile Char.isAlpha := by
      rw [List.takeWhile_append_of_pos halpha]
      exact List.prefix_append _ _
    have hwindow : (c :: a).length ≤ window .exact c := by
      have hlength : (c :: a).length = k.letters.length := by rw [← hk, length_lower]
      rw [hlength]
      exact Section.length_le_longestFrom (by rw [← hk]; rfl)
    exact List.prefix_take_iff.2 ⟨hletters, hwindow⟩

/-- Exact mode tells whether a section name comes first behind the blanks, whatever follows it. -/
theorem isHeader_exact_iff {s : List Char} :
    isHeader .exact s = true ↔ ∃ k : Section, k.letters <+: lower (s.dropWhile isBlank) := by
  refine ⟨exists_name_of_isHeader, ?_⟩
  rintro ⟨k, hk⟩
  obtain ⟨a, ha, hname⟩ := List.prefix_map_iff.1 hk
  rw [isHeader_eq, Section.isSome_ofWord?_exact, lower_collected]
  exact ⟨k, hname ▸ (isPrefix_collected ha hname.symm).map Char.toLower⟩

theorem collected_substring (s : List Char) :
    collected .substring s = ((s.dropWhile isBlank).takeWhile Char.isAlpha).take Word.capacity := by
  unfold collected
  split
  · rename_i h
    rw [h]
    rfl
  · rename_i c cs h
    rw [h]
    by_cases hc : c.isAlpha = true
    · rw [show window .substring c = Word.capacity from if_pos hc]
    · rw [List.takeWhile_cons_of_neg hc, List.take_nil, List.take_nil]

/-- Substring mode tells whether a section name stands anywhere in the letters that come first behind the blanks. -/
theorem isHeader_substring_iff {s : List Char} : isHeader .substring s = true ↔ ∃ k : Section,
    k.letters <:+: lower (((s.dropWhile isBlank).takeWhile Char.isAlpha).take Word.capacity) := by
  rw [isHeader_eq, Section.isSome_ofWord?_substring, lower_collected, collected_substring]

/-! ## Both modes -/

theorem window_exact_le (c : Char) : window .exact c ≤ window .substring c := by
  by_cases hzero : window .exact c = 0
  · omega
  · have hsubstring : window .substring c = Word.capacity := if_pos (isAlpha_of_window hzero)
    rw [hsubstring]
    exact window_le .exact c

/-- The shorter window shows a part of the longer one. -/
theorem collected_exact_isPrefix (s : List Char) : collected .exact s <+: collected .substring s := by
  unfold collected
  split
  · exact List.prefix_refl _
  · exact List.take_prefix_take_left (window_exact_le _)

theorem isHeader_of_exact {s : List Char} (h : isHeader .exact s = true) : isHeader .substring s = true := by
  rw [isHeader_eq, Section.isSome_ofWord?_exact, lower_collected] at h
  rw [isHeader_eq, Section.isSome_ofWord?_substring, lower_collected]
  obtain ⟨k, hk⟩ := h
  exact ⟨k, (hk.trans ((collected_exact_isPrefix s).map Char.toLower)).isInfix⟩

end IniScan.Header.Probe
