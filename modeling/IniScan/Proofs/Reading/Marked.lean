import IniScan.Proofs.Reading.Orderly

/-!
# Accepted readings are marked

Of the calls that a reader makes, the marks are the ones that it may forget. A host then takes the token to end wherever the
reading stopped, and with one character of lookahead that is often right, so the slip would not show. `Marking` says of
single steps that nothing is forgotten: `marked` are the states behind a mark, none but a mark leads to one of them, and
what is accepted elsewhere is marked where it ends.

* `Marking.mark_mem`: an accepted reading holds a mark.
* `length_moves_le`: no reader calls more than twice for each character, and once at the end.
* `boundary_marking`, `subject_marking`, `line_marking`, `regexName_marking`, `content_marking`: the readers that mark.
* `separator_not_marked`: the one that never does.
-/
namespace IniScan

open Text

namespace Reader

variable {σ α : Type}

/-- A reader that comes to a marked state by a mark alone, and ends an accepted reading in a marked state or with a mark. -/
structure Marking (r : Reader σ α) (marked : σ → Prop) (accepts : α → Prop) : Prop where
  start : ¬ marked r.start
  go : ∀ {s t : σ} {c : Char} {how : Advance}, r.step s c = .go how t → marked t → marked s ∨ Move.mark ∈ how.moves
  stop : ∀ {s : σ} {c : Char} {e : Ending α}, r.step s c = .stop e → accepts e.outcome → marked s ∨ e.marked = true
  atEnd : ∀ s, accepts (r.atEnd s).outcome → marked s ∨ (r.atEnd s).marked = true

theorem Ending.mark_mem_moves {e : Ending α} (h : e.marked = true) : Move.mark ∈ e.moves := by
  rw [Ending.moves, h]
  exact List.mem_singleton_self _

section

variable {r : Reader σ α} {marked : σ → Prop} {accepts : α → Prop}

theorem Marking.mark_mem_readFrom (h : r.Marking marked accepts) (s : σ) (cs : List Char)
    (ha : accepts (r.readFrom s cs).outcome) : marked s ∨ Move.mark ∈ (r.readFrom s cs).moves := by
  induction cs generalizing s with
  | nil => exact (h.atEnd s ha).imp_right Ending.mark_mem_moves
  | cons c cs ih =>
    cases hstep : r.step s c with
    | stop e =>
      rw [readFrom_of_stop cs hstep] at ha ⊢
      exact (h.stop hstep ha).imp_right Ending.mark_mem_moves
    | go how t =>
      rw [readFrom_of_go cs hstep] at ha ⊢
      rw [List.mem_append]
      rcases ih t ha with ht | hrest
      · exact (h.go hstep ht).imp_right Or.inl
      · exact Or.inr (Or.inr hrest)

theorem Marking.mark_mem (h : r.Marking marked accepts) {cs : List Char} (ha : accepts (r.read cs).outcome) :
    Move.mark ∈ (r.read cs).moves :=
  (h.mark_mem_readFrom r.start cs ha).resolve_left h.start

end

/-! ## How many calls there are -/

theorem length_advance_moves (how : Advance) : how.moves.length ≤ 2 := by cases how <;> decide

theorem length_ending_moves (e : Ending α) : e.moves.length ≤ 1 := by
  unfold Ending.moves
  split <;> decide

theorem length_moves_le (r : Reader σ α) (s : σ) (cs : List Char) :
    (r.readFrom s cs).moves.length ≤ 2 * cs.length + 1 := by
  induction cs generalizing s with
  | nil => exact length_ending_moves _
  | cons c cs ih =>
    cases hstep : r.step s c with
    | stop e =>
      rw [readFrom_of_stop cs hstep]
      exact Nat.le_trans (length_ending_moves e) (Nat.le_add_left _ _)
    | go how t =>
      rw [moves_readFrom_cons cs hstep, List.length_append, List.length_cons]
      have := ih t
      have := length_advance_moves how
      omega

end Reader

/-! ## The readers -/

/-- Wherever the run of blanks ends. -/
theorem boundary_marking : Boundary.reader.Marking (fun _ => False) (fun _ => True) := by
  refine ⟨id, fun _ ht => ht.elim, ?_, fun _ _ => Or.inr rfl⟩
  intro s c e h _
  simp only [Boundary.reader, Boundary.step] at h
  split at h
  · cases h
  split at h
  · cases h
  · cases h
    exact Or.inr rfl

/-- Text is marked as it is taken, and a subject without text where it ends. -/
theorem subject_marking : Header.Subject.reader.Marking (fun text => text = true) (fun _ => True) := by
  refine ⟨Bool.false_ne_true, ?_, ?_, ?_⟩
  · intro s t c how h ht
    simp only [Header.Subject.reader, Header.Subject.step] at h
    split at h
    · cases h
    split at h
    · cases h
      exact Or.inl ht
    · cases h
      exact Or.inr (by decide)
  · intro s c e h _
    simp only [Header.Subject.reader, Header.Subject.step] at h
    split at h
    · cases h
      cases s
      · exact Or.inr rfl
      · exact Or.inl rfl
    split at h <;> cases h
  · intro s _
    cases s
    · exact Or.inr rfl
    · exact Or.inl rfl

theorem regexName_marking : Header.RegexName.reader.Marking (fun _ => False) (fun _ => True) := by
  refine ⟨id, fun _ ht => ht.elim, ?_, fun _ _ => Or.inr rfl⟩
  intro s c e h _
  simp only [Header.RegexName.reader] at h
  split at h
  · cases h
    exact Or.inr rfl
  · cases h

/-- A probe stands behind the mark in front of its bracket. If it fails, the content is marked again where it ends. -/
theorem line_marking (mode : MatchMode) :
    (Line.reader mode).Marking (fun s => ∃ p, s = .header p) (fun _ => True) := by
  refine ⟨nofun, ?_, ?_, ?_⟩
  · rintro s t c how h ⟨p, rfl⟩
    cases Line.goes_of_step h with
    | bracket => exact Or.inr (by decide)
    | probe => exact Or.inl ⟨_, rfl⟩
  · intro s c e h _
    cases Line.ends_of_step h with
    | comment => exact Or.inr rfl
    | header => exact Or.inl ⟨_, rfl⟩
    | lineEnd => exact Or.inr rfl
  · intro s _
    cases s with
    | start => exact Or.inr rfl
    | header p => exact Or.inl ⟨p, rfl⟩
    | content => exact Or.inr rfl

/-- Content is marked in front of each separator in it, and if there is none where a terminator ends it. -/
theorem content_marking : Path.contentReader.Marking (fun s => s.separated = true) (fun found => found = true) := by
  refine ⟨Bool.false_ne_true, ?_, ?_, fun s hs => Or.inl hs⟩
  · intro s t c how h ht
    simp only [Path.contentReader, Path.step] at h
    split at h
    · split at h
      · cases h
      · cases h
        exact Or.inr (by decide)
    split at h
    · cases h
    · cases h
      exact Or.inl ht
  · intro s c e h he
    simp only [Path.contentReader, Path.step] at h
    split at h
    · split at h
      · cases h
        cases he
      · cases h
    split at h
    · cases h
      cases hs : s.separated
      · exact Or.inr rfl
      · exact Or.inl rfl
    · cases h

/-- A separator is one character, so it ends where the reading does. -/
theorem separator_not_marked (taken : Bool) (cs : List Char) :
    Move.mark ∉ (Path.separatorReader.readFrom taken cs).moves := by
  induction cs generalizing taken with
  | nil => exact List.not_mem_nil
  | cons c cs ih =>
    by_cases hc : (!taken && c = Path.separator) = true
    · have hstep : Path.separatorReader.step taken c = .go .take true := if_pos hc
      rw [Reader.moves_readFrom_cons cs hstep, List.mem_append, not_or]
      exact ⟨by decide, ih true⟩
    · have hstep : Path.separatorReader.step taken c = .stop ⟨taken, false⟩ := if_neg hc
      rw [Reader.readFrom_of_stop cs hstep]
      exact List.not_mem_nil

end IniScan
