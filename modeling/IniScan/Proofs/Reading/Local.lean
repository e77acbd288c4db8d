import IniScan.Boundary
import IniScan.Header.RegexName
import IniScan.Header.Subject
import IniScan.Line
import IniScan.Path
import IniScan.Proofs.Line.Shape

/-!
# How much of the text a reading depends on

A reader looks at the characters that it goes past and at the one in front of which it stops. So a reading depends on nothing
behind that character (`Local`), whatever the reader is. All readers but that of boundaries also stop at the first line end if
they have not stopped before, and none of them tells one line end from the other. For these the rest of the text from the
first line end on does not count at all (`WithinLine`).

* `Reader.local_read`: every reading is local.
* `Reader.StopsAtLineEnds.withinLine`: a reader that stops at line ends reads within the line.
* `subject_stops`, `line_stops`, `regexName_stops`, `separator_stops`, `content_stops`: the readers that do.
-/
namespace IniScan

open Text

namespace Reading

variable {α β : Type}

/-- A reading goes past some of the text, and this and the character behind it, if there is one, decide the reading. -/
structure Local (read : List Char → Reading α) : Prop where
  advances_le : ∀ unread, (read unread).advances ≤ unread.length
  congr : ∀ (way : List Char) {rest rest' : List Char}, (read (way ++ rest)).advances = way.length →
    rest'.head? = rest.head? → read (way ++ rest') = read (way ++ rest)

/-- A reading goes past no more than stands in front of a line end, and is the same in front of any other line end and
text. -/
def WithinLine (read : List Char → Reading α) : Prop :=
  ∀ (front : List Char) {c d : Char} (rest rest' : List Char), isLineEnd c = true → isLineEnd d = true →
    (read (front ++ c :: rest)).advances ≤ front.length ∧ read (front ++ d :: rest') = read (front ++ c :: rest)

section

variable {read : List Char → Reading α}

theorem Local.map (h : Local read) (f : α → β) : Local fun unread => (read unread).map f :=
  ⟨h.advances_le, fun way _ _ hway hhead => congrArg (Reading.map f) (h.congr way hway hhead)⟩

theorem WithinLine.map (h : WithinLine read) (f : α → β) : WithinLine fun unread => (read unread).map f := by
  intro front c d rest rest' hc hd
  obtain ⟨hle, heq⟩ := h front rest rest' hc hd
  exact ⟨hle, congrArg (Reading.map f) heq⟩

end

theorem local_nothing (o : α) : Local fun _ => ⟨o, []⟩ := ⟨fun _ => Nat.zero_le _, fun _ _ _ _ _ => rfl⟩

theorem withinLine_nothing (o : α) : WithinLine fun _ => ⟨o, []⟩ := fun _ _ _ _ _ _ _ => ⟨Nat.zero_le _, rfl⟩

end Reading

namespace Reader

open Reading

variable {σ α : Type} {r : Reader σ α}

theorem advances_of_go {s next : σ} {c : Char} {how : Advance} (cs : List Char) (h : r.step s c = .go how next) :
    (r.readFrom s (c :: cs)).advances = (r.readFrom next cs).advances + 1 := by
  rw [advances, moves_readFrom_cons cs h, List.countP_append, countP_advance_moves, Nat.add_comm]
  rfl

theorem advances_of_stop {s : σ} {c : Char} {e : Ending α} (cs : List Char) (h : r.step s c = .stop e) :
    (r.readFrom s (c :: cs)).advances = 0 := by
  rw [readFrom_of_stop cs h]
  exact countP_ending_moves e

theorem local_readFrom (r : Reader σ α) (s : σ) : Local (r.readFrom s) := by
  refine ⟨r.advances_le s, ?_⟩
  intro way rest rest' hway hhead
  induction way generalizing s with
  | nil =>
    cases rest with
    | nil =>
      obtain rfl : rest' = [] := List.head?_eq_none_iff.1 hhead
      rfl
    | cons c cs =>
      obtain ⟨cs', rfl⟩ := List.head?_eq_some_iff.1 hhead
      cases hstep : r.step s c with
      | go how next =>
        rw [List.nil_append, advances_of_go cs hstep] at hway
        cases hway
      | stop e => rw [List.nil_append, List.nil_append, readFrom_of_stop cs' hstep, readFrom_of_stop cs hstep]
  | cons c way ih =>
    simp only [List.cons_append] at hway ⊢
    cases hstep : r.step s c with
    | go how next =>
      rw [advances_of_go _ hstep, List.length_cons, Nat.add_right_cancel_iff] at hway
      rw [readFrom_of_go _ hstep, readFrom_of_go _ hstep, ih next hway]
    | stop e => rw [readFrom_of_stop _ hstep, readFrom_of_stop _ hstep]

theorem local_read (r : Reader σ α) : Local r.read := r.local_readFrom r.start

/-- In each state the reader stops at a line end, and does so in the same way at both of them. -/
def StopsAtLineEnds (r : Reader σ α) : Prop := ∀ s, ∃ e, ∀ c, isLineEnd c = true → r.step s c = .stop e

theorem StopsAtLineEnds.withinLine_readFrom (h : r.StopsAtLineEnds) (s : σ) : WithinLine (r.readFrom s) := by
  intro front c d rest rest' hc hd
  induction front generalizing s with
  | nil =>
    obtain ⟨e, he⟩ := h s
    simp only [List.nil_append]
    rw [advances_of_stop rest (he c hc), readFrom_of_stop rest' (he d hd), readFrom_of_stop rest (he c hc)]
    exact ⟨Nat.le_refl 0, rfl⟩
  | cons b front ih =>
    simp only [List.cons_append]
    cases hstep : r.step s b with
    | go how next =>
      obtain ⟨hle, heq⟩ := ih next
      rw [advances_of_go _ hstep, readFrom_of_go _ hstep, readFrom_of_go _ hstep, heq, List.length_cons]
      exact ⟨Nat.succ_le_succ hle, rfl⟩
    | stop e =>
      rw [advances_of_stop _ hstep, readFrom_of_stop _ hstep, readFrom_of_stop _ hstep]
      exact ⟨Nat.zero_le _, rfl⟩

theorem StopsAtLineEnds.withinLine (h : r.StopsAtLineEnds) : WithinLine r.read := h.withinLine_readFrom r.start

end Reader

/-! ## The readers that stop at line ends -/

theorem Header.Subject.isClosing_of_isLineEnd {c : Char} (h : isLineEnd c = true) : isClosing c = true := by
  rw [isClosing, h, Bool.or_true]

theorem subject_stops : Header.Subject.reader.StopsAtLineEnds := by
  intro text
  exact ⟨_, fun c hc => if_pos (Header.Subject.isClosing_of_isLineEnd hc)⟩

theorem regexName_stops : Header.RegexName.reader.StopsAtLineEnds := by
  intro s
  exact ⟨_, fun c hc => if_pos (Header.Subject.isClosing_of_isLineEnd hc)⟩

theorem Path.ne_separator_of_isLineEnd {c : Char} (h : isLineEnd c = true) : c ≠ separator := by
  rintro rfl
  exact absurd h (by decide)

theorem separator_stops : Path.separatorReader.StopsAtLineEnds := by
  intro taken
  refine ⟨⟨taken, false⟩, fun c hc => ?_⟩
  simp only [Path.separatorReader, Path.ne_separator_of_isLineEnd hc, decide_false, Bool.and_false, Bool.false_eq_true,
    if_false]

theorem content_stops : Path.contentReader.StopsAtLineEnds := by
  intro s
  refine ⟨⟨true, !s.separated⟩, fun c hc => ?_⟩
  have hterminator : Path.isTerminator c = true := by rw [Path.isTerminator, hc, Bool.or_true]
  simp only [Path.contentReader, Path.step, Path.ne_separator_of_isLineEnd hc, hterminator, if_true, if_false]

/-- The probe does not go past a line end either, and leaves the line to be decided by its verdict. -/
theorem line_stops (mode : MatchMode) : (Line.reader mode).StopsAtLineEnds := by
  have hcontent : ∀ c, isLineEnd c = true → Line.contentStep c = .stop ⟨.externalLine, true⟩ := fun c hc => if_pos hc
  intro s
  cases s with
  | start =>
    refine ⟨⟨.externalLine, true⟩, fun c hc => ?_⟩
    simp only [isLineEnd, Bool.or_eq_true, decide_eq_true_eq] at hc
    rcases hc with rfl | rfl <;> rfl
  | header p =>
    have hstep : ∀ c, isLineEnd c = true → (Line.reader mode).step (.header p) c =
        if p.verdict mode then .stop ⟨.headerStart, false⟩ else .stop ⟨.externalLine, true⟩ := by
      intro c hc
      simp only [Line.reader, Line.step, Line.next_of_isLineEnd mode hc p, hcontent c hc]
    by_cases hv : p.verdict mode = true
    · exact ⟨_, fun c hc => (hstep c hc).trans (if_pos hv)⟩
    · exact ⟨_, fun c hc => (hstep c hc).trans (if_neg hv)⟩
  | content => exact ⟨_, hcontent⟩

end IniScan
