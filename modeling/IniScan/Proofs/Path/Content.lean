import IniScan.Path
import IniScan.Proofs.Reading.Span
import IniScan.Proofs.Reading.Stretch
import IniScan.Proofs.Text.Runs

/-!
# What the content of a path is

The content reader goes to the first terminator or to the end of the text. On that way it marks every separator, so this
run of characters tells alone whether there is content and where it ends, but for one thing: without a separator the
content ends with the run, and then a terminator has to stand behind it.

A run with a dollar sign right in front of a separator is `Cut`: the path would cut off a variable.

* `outcome_of_cut`: there is no content in such a run.
* `read_of_separator`: the content ends in front of the last separator.
* `read_of_terminator`, `outcome_of_open`: without a separator the content is the whole run, or there is none.
-/
namespace IniScan.Path

open Text

/-! ## Variables cut off -/

/-- A dollar sign stands right in front of a separator. -/
def Cut (s : List Char) : Prop := ['$', separator] <:+: s

theorem not_cut_nil : ¬ Cut [] := by simp [Cut]

theorem cut_cons {c : Char} {s : List Char} : Cut (c :: s) ↔ (c = '$' ∧ s.head? = some separator) ∨ Cut s := by
  have hhead : [separator] <+: s ↔ s.head? = some separator := by cases s <;> simp [eq_comm]
  rw [Cut, List.infix_cons_iff, List.cons_prefix_cons, hhead, @eq_comm _ '$' c]
  rfl

theorem cut_separator {s : List Char} : Cut (separator :: s) ↔ Cut s := by
  rw [cut_cons]
  exact or_iff_right fun h => absurd h.1 (by decide)

theorem Cut.mem {s : List Char} (h : Cut s) : separator ∈ s := h.subset (by simp)

/-- A cut lies in front of a separator, at it or behind it. -/
theorem cut_append {p q : List Char} : Cut (p ++ separator :: q) ↔ Cut p ∨ p.getLast? = some '$' ∨ Cut q := by
  induction p with
  | nil => simp [cut_separator, not_cut_nil]
  | cons c p ih =>
    rw [List.cons_append, cut_cons, cut_cons, ih]
    cases p with
    | nil => simp [not_cut_nil]
    | cons d p => simp [or_assoc]

/-! ## Going through a run -/

/-- How the reader goes past a character of a run. -/
def advance (c : Char) : Advance := if c = separator then .markTake else .take

/-- The calls on the way through a run. -/
def calls (s : List Char) : List Move := s.flatMap fun c => (advance c).moves

theorem calls_cons (c : Char) (s : List Char) : calls (c :: s) = (advance c).moves ++ calls s := rfl

theorem calls_append (s t : List Char) : calls (s ++ t) = calls s ++ calls t := List.flatMap_append

theorem skip_not_mem_calls (s : List Char) : Move.skip ∉ calls s := by
  induction s with
  | nil => exact List.not_mem_nil
  | cons c s ih =>
    rw [calls_cons, advance]
    split <;> simp [Advance.moves, ih]

theorem distance_calls (s : List Char) : Move.distance (calls s) = s.length := by
  induction s with
  | nil => rfl
  | cons c s ih =>
    rw [calls_cons, Move.distance_append, ih, advance]
    split <;> simp [Advance.moves, Nat.add_comm]

theorem markAt_calls_of_not_mem {s : List Char} (h : separator ∉ s) : Move.markAt (calls s) = none := by
  induction s with
  | nil => rfl
  | cons c s ih =>
    rw [List.mem_cons, not_or] at h
    rw [calls_cons, advance, if_neg (Ne.symm h.1), Advance.moves, List.singleton_append, Move.markAt_take, ih h.2]
    rfl

/-- The last mark is at the last separator. -/
theorem markAt_calls_append (p : List Char) {q : List Char} (h : separator ∉ q) :
    Move.markAt (calls (p ++ separator :: q)) = some p.length := by
  have hseparator : (advance separator).moves = [.mark, .take] := rfl
  rw [calls_append, calls_cons, hseparator, Move.markAt_append, distance_calls]
  simp [markAt_calls_of_not_mem h]

theorem step_of_cut {s : State} (hs : s.dollar = true) : contentReader.step s separator = .stop ⟨false, false⟩ := by
  simp only [contentReader, step, if_true, hs]

theorem step_of_run {s : State} {c : Char} (hc : isTerminator c = false) (hs : ¬ (s.dollar = true ∧ c = separator)) :
    contentReader.step s c = .go (advance c) ⟨s.separated || c = separator, c = '$'⟩ := by
  simp only [contentReader, step, advance]
  by_cases hsep : c = separator
  · have hdollar : decide (separator = '$') = false := by decide
    rw [if_pos hsep, if_neg fun hd => hs ⟨hd, hsep⟩, if_pos hsep, hsep, hdollar]
    simp
  · rw [if_neg hsep, if_neg (by simp [hc]), if_neg hsep]
    simp [hsep]

/-- The run would cut off a variable that it holds, or one whose dollar sign stands in front of it. -/
def State.Cuts (s : State) (run : List Char) : Prop := (s.dollar = true ∧ run.head? = some separator) ∨ Cut run

theorem State.cuts_cons {s : State} {c : Char} {run : List Char} :
    s.Cuts (c :: run) ↔ (s.dollar = true ∧ c = separator) ∨ State.Cuts ⟨s.separated || c = separator, c = '$'⟩ run := by
  rw [State.Cuts, State.Cuts, cut_cons, List.head?_cons, Option.some.injEq]
  simp only [decide_eq_true_eq]

section

variable {run : List Char} (hrun : ∀ c ∈ run, isTerminator c = false)

include hrun

theorem passes_content {s : State} (hs : ¬ s.Cuts run) :
    ∃ dollar, contentReader.Passes s run (calls run) ⟨s.separated || separator ∈ run, dollar⟩ := by
  induction run generalizing s with
  | nil =>
    have hseparated : (s.separated || separator ∈ []) = s.separated := by simp
    rw [hseparated]
    exact ⟨s.dollar, .nil s⟩
  | cons c run ih =>
    rw [State.cuts_cons, not_or] at hs
    obtain ⟨dollar, hpass⟩ := ih (fun d hd => hrun d (List.mem_cons_of_mem _ hd)) hs.2
    have hseparated : (s.separated || separator ∈ c :: run) =
        ((s.separated || c = separator) || separator ∈ run) := by
      simp [Bool.or_assoc, eq_comm]
    rw [hseparated]
    exact ⟨dollar, .cons (step_of_run (hrun c List.mem_cons_self) hs.1) hpass⟩

theorem outcome_of_cuts {s : State} (hs : s.Cuts run) (rest : List Char) :
    (contentReader.readFrom s (run ++ rest)).outcome = false := by
  induction run generalizing s with
  | nil => simp [State.Cuts, not_cut_nil] at hs
  | cons c run ih =>
    rw [List.cons_append]
    by_cases hc : s.dollar = true ∧ c = separator
    · rw [hc.2, Reader.readFrom_of_stop _ (step_of_cut hc.1)]
    · rw [Reader.readFrom_of_go _ (step_of_run (hrun c List.mem_cons_self) hc)]
      exact ih (fun d hd => hrun d (List.mem_cons_of_mem _ hd)) ((State.cuts_cons.1 hs).resolve_left hc)

end

/-! ## Behind a run -/

theorem readFrom_terminated {s : State} {rest : List Char} (hrest : Stops (fun c => !isTerminator c) rest) :
    contentReader.readFrom s rest =
      ⟨s.separated || !rest.isEmpty, if s.separated = false ∧ rest ≠ [] then [.mark] else []⟩ := by
  cases rest with
  | nil => simp [Reader.readFrom, contentReader, Ending.moves]
  | cons c cs =>
    have hc : isTerminator c = true := by simpa using hrest
    have hsep : c ≠ separator := fun h => by
      rw [h] at hc
      exact absurd hc (by decide)
    have hstep : contentReader.step s c = .stop ⟨true, !s.separated⟩ := by
      simp only [contentReader, step, if_neg hsep, if_pos hc]
    rw [Reader.readFrom_of_stop cs hstep]
    simp [Ending.moves]

/-! ## Content -/

section

variable {run rest : List Char} (hrun : ∀ c ∈ run, isTerminator c = false)

include hrun

theorem outcome_of_cut (hcut : Cut run) : (contentReader.read (run ++ rest)).outcome = false :=
  outcome_of_cuts hrun (.inr hcut) rest

variable (hcut : ¬ Cut run) (hrest : Stops (fun c => !isTerminator c) rest)

include hcut hrest

theorem read_run : contentReader.read (run ++ rest) = ⟨separator ∈ run || !rest.isEmpty,
    calls run ++ if separator ∉ run ∧ rest ≠ [] then [.mark] else []⟩ := by
  have hstart : ¬ contentReader.start.Cuts run := by
    rintro (h | h)
    · cases h.1
    · exact hcut h
  obtain ⟨dollar, hpass⟩ := passes_content hrun hstart
  have hseparated : contentReader.start.separated = false := rfl
  rw [Reader.read, hpass.readFrom, readFrom_terminated hrest, hseparated]
  simp

/-- The content ends in front of the last separator. -/
theorem read_of_separator {p q : List Char} (he : run = p ++ separator :: q) (hq : separator ∉ q) :
    (contentReader.read (run ++ rest)).outcome = true ∧ (contentReader.read (run ++ rest)).Spans 0 p.length := by
  have hmem : separator ∈ run := by simp [he]
  rw [read_run hrun hcut hrest, if_neg fun h => h.1 hmem, List.append_nil]
  refine ⟨by simp [hmem], calls run, rfl, skip_not_mem_calls run, ?_⟩
  rw [he, markAt_calls_append p hq, Option.getD_some, Nat.zero_add]

/-- Without a separator a terminator closes the content. -/
theorem read_of_terminator (hmem : separator ∉ run) (hne : rest ≠ []) :
    (contentReader.read (run ++ rest)).outcome = true ∧ (contentReader.read (run ++ rest)).Spans 0 run.length := by
  rw [read_run hrun hcut hrest, if_pos ⟨hmem, hne⟩]
  refine ⟨by simp [hne], calls run ++ [.mark], rfl, by simp [skip_not_mem_calls run], ?_⟩
  rw [Move.markAt_append_mark, distance_calls, Option.getD_some, Nat.zero_add]

theorem outcome_of_open (hmem : separator ∉ run) (he : rest = []) :
    (contentReader.read (run ++ rest)).outcome = false := by
  rw [read_run hrun hcut hrest]
  simp [hmem, he]

end

end IniScan.Path
